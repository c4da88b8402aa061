import CallGuard.Proofs.Gathering
import CallGuard.Run
set_option autoImplicit false

/-!
# Runs over files that are there

When each path leads to a file of its own, what a run does to one file does not reach the others,
whatever the disk refuses. The run as a whole then has a closed form: what it says of each file is
what it would say of it in the tree before the run, and the tree after it has the new contents at the
locations of the files.
-/
namespace CallGuard

variable {faults faults' : Faults} {d : Dialect} {dryRun : Bool} {top top' after : Folder} {p q : Path}
  {loc : List Name} {c : ByteArray} {t : Text} {files : List (Path × List Name)}

/-! ## Contents -/

/-- A text is guarded, and bytes that are no text stay. -/
def guardContent (d : Dialect) (c : ByteArray) : ByteArray :=
  match String.fromUTF8? c with
  | some s => (String.ofList (guardText d s.toList).output).toUTF8
  | none => c

theorem fromUTF8?_toUTF8 (t : Text) :
    String.fromUTF8? (String.ofList t).toUTF8 = some (String.ofList t) :=
  dif_pos (String.ofList t).isValidUTF8

theorem toUTF8_of_fromUTF8? {s : String} (h : String.fromUTF8? c = some s) : s.toUTF8 = c := by
  unfold String.fromUTF8? at h
  split at h
  · cases h
    rfl
  · cases h

theorem toUTF8_ofList_inj {t u : Text} :
    (String.ofList t).toUTF8 = (String.ofList u).toUTF8 ↔ t = u := by
  refine ⟨fun h => ?_, fun h => by rw [h]⟩
  have same := congrArg String.fromUTF8? h
  rw [fromUTF8?_toUTF8, fromUTF8?_toUTF8, Option.some.injEq] at same
  exact String.ofList_injective same

theorem guardContent_text (d : Dialect) (t : Text) : guardContent d (String.ofList t).toUTF8 =
    (String.ofList (guardText d t).output).toUTF8 := by
  rw [guardContent, fromUTF8?_toUTF8]
  dsimp only
  rw [String.toList_ofList]

theorem guardContent_text_eq_self : guardContent d (String.ofList t).toUTF8 = (String.ofList t).toUTF8 ↔
    (guardText d t).output = t := by
  rw [guardContent_text, toUTF8_ofList_inj]

theorem guardContent_of_none (h : String.fromUTF8? c = none) : guardContent d c = c := by
  rw [guardContent, h]

/-! ## Reading and writing -/

namespace Folder

theorem readText_of_file (hp : top.locate p = .ok loc) (hc : top.at? loc = some (.file c)) :
    top.readText p = match String.fromUTF8? c with
      | some s => .ok s.toList
      | none => .error .notText := by
  cases hs : String.fromUTF8? c <;> simp [readText, hp, bind, Except.bind, hc, hs]

theorem readText_eq_ok (hp : top.locate p = .ok loc) (hc : top.at? loc = some (.file c)) :
    top.readText p = .ok t ↔ c = (String.ofList t).toUTF8 := by
  rw [readText_of_file hp hc]
  constructor
  · intro h
    cases hs : String.fromUTF8? c with
    | none =>
      rw [hs] at h
      cases h
    | some s =>
      rw [hs] at h
      cases h
      rw [String.ofList_toList, toUTF8_of_fromUTF8? hs]
  · rintro rfl
    rw [fromUTF8?_toUTF8]
    dsimp only
    rw [String.toList_ofList]

theorem readText_eq_error (hp : top.locate p = .ok loc) (hc : top.at? loc = some (.file c))
    {why : Refusal} (h : top.readText p = .error why) :
    why = .notText ∧ String.fromUTF8? c = none := by
  rw [readText_of_file hp hc] at h
  cases hs : String.fromUTF8? c with
  | none =>
    rw [hs] at h
    cases h
    exact ⟨rfl, rfl⟩
  | some s =>
    rw [hs] at h
    cases h

theorem write_of_file (hw : top.isProper) (hp : top.locate p = .ok loc)
    (hc : top.at? loc = some (.file c)) (new : ByteArray) :
    top.write p new = .ok (top.refill (contentAt loc new)) := by
  simp only [write, hp, bind, Except.bind, hc, put_file hw hc]

theorem readText_congr (hp : top'.locate p = top.locate p)
    (h : ∀ loc, top.locate p = .ok loc → top'.at? loc = top.at? loc) :
    top'.readText p = top.readText p := by
  unfold readText
  rw [hp]
  cases hl : top.locate p with
  | error why => rfl
  | ok loc =>
    have same := h loc hl
    simp only [bind, Except.bind, same]

theorem readText_refill_of_eq {f : List Name → ByteArray → ByteArray}
    (h : top.LeadsToFile p loc) (same : ∀ c, f loc c = c) :
    (top.refill f).readText p = top.readText p := by
  obtain ⟨hp, c, hc⟩ := h
  refine readText_congr (locate_refill _ _ _) fun l hp' => ?_
  rw [hp] at hp'
  cases hp'
  rw [at?_refill_file hc, hc, same]

theorem refill_contentAt_self (hw : top.isProper) (hc : top.at? loc = some (.file c)) :
    top.refill (contentAt loc c) = top := by
  refine refill_eq_self hw fun l old h => ?_
  rw [contentAt]
  split
  · rename_i here
    rw [here, hc] at h
    cases h
    rfl
  · rfl

end Folder

theorem Faults.readText_congr (hr : faults'.reading p = faults.reading p)
    (h : top'.readText p = top.readText p) : faults'.readText top' p = faults.readText top p := by
  rw [readText, readText, hr, h]

theorem Faults.readText_eq_ok :
    faults.readText top p = .ok t ↔ faults.reading p = none ∧ top.readText p = .ok t := by
  rw [readText]
  cases faults.reading p <;> simp

/-- A file that is there is refused by the disk, or it holds no text. -/
theorem Faults.readText_eq_error (hp : top.locate p = .ok loc) (hc : top.at? loc = some (.file c))
    {why : Refusal} (h : faults.readText top p = .error why) :
    why = (faults.reading p).elim .notText .fault := by
  rw [readText] at h
  cases hr : faults.reading p with
  | some fault =>
    rw [hr] at h
    cases h
    rfl
  | none =>
    rw [hr] at h
    exact (Folder.readText_eq_error hp hc h).1

theorem readSource_eq (faults : Faults) (top : Folder) (p : Path) : readSource faults top p =
    match faults.readText top p with
    | .error why => .error (.unreadable p why.message)
    | .ok t => .ok t := by
  rw [readSource]
  cases faults.readText top p <;> rfl

/-- The library only fails to read, so that `Failure.ofReading` passes on no failure as it is. -/
theorem readSource_eq_error_iff {f : LibraryFailure} : readSource faults top p = .error f ↔
    ∃ why, faults.readText top p = .error why ∧ f = .unreadable p why.message := by
  rw [readSource_eq]
  cases faults.readText top p <;> simp [eq_comm]

/-! ## One file -/

def outcomeOf (d : Dialect) (p : Path) (t : Text) : Outcome :=
  ⟨p, (guardText d t).count, (guardText d t).output != t, (guardText d t).unterminated.map (· + 1)⟩

/-- What a run says of one file in the tree before it. -/
def forecast (faults : Faults) (d : Dialect) (dryRun : Bool) (top : Folder) (p : Path) :
    Except Failure Outcome :=
  match faults.readText top p with
  | .error why => .error (.unreadable p why.message)
  | .ok t =>
    match faults.writing p with
    | some (why, _) =>
      if (outcomeOf d p t).modified && !dryRun then .error (.unwritable p why)
      else .ok (outcomeOf d p t)
    | none => .ok (outcomeOf d p t)

theorem forecast_congr (h : faults'.readText top' p = faults.readText top p)
    (hw : faults'.writing p = faults.writing p) :
    forecast faults' d dryRun top' p = forecast faults d dryRun top p := by
  rw [forecast, forecast, h, hw]

theorem forecast_unreadable {why : Refusal} (h : faults.readText top p = .error why) :
    forecast faults d dryRun top p = .error (.unreadable p why.message) := by
  rw [forecast, h]

theorem forecast_text (h : faults.readText top p = .ok t) (d : Dialect) (dryRun : Bool) :
    (forecast faults d dryRun top p = .ok (outcomeOf d p t) ∧
      (dryRun = false → (guardText d t).output ≠ t → faults.writing p = none)) ∨
    ∃ why left, dryRun = false ∧ (guardText d t).output ≠ t ∧
      faults.writing p = some (why, left) ∧
      forecast faults d dryRun top p = .error (.unwritable p why) := by
  rw [forecast, h]
  dsimp only
  cases faults.writing p with
  | none => exact Or.inl ⟨rfl, fun _ _ => rfl⟩
  | some fault =>
    obtain ⟨why, left⟩ := fault
    dsimp only
    by_cases writes : dryRun = false ∧ (guardText d t).output ≠ t
    · refine Or.inr ⟨why, left, writes.1, writes.2, rfl, if_pos ?_⟩
      simpa [outcomeOf, writes.1] using writes.2
    · refine Or.inl ⟨if_neg fun h => writes ?_, fun hd hc => absurd ⟨hd, hc⟩ writes⟩
      simpa [outcomeOf, and_comm] using h

theorem exists_of_forecast_ok {o : Outcome} (h : forecast faults d dryRun top p = .ok o) :
    ∃ t, faults.readText top p = .ok t ∧ o = outcomeOf d p t := by
  cases hr : faults.readText top p with
  | error why =>
    rw [forecast_unreadable hr] at h
    cases h
  | ok t =>
    refine ⟨t, rfl, ?_⟩
    rcases forecast_text hr d dryRun with ⟨said, -⟩ | ⟨why, left, -, -, -, said⟩
    · rw [said] at h
      cases h
      rfl
    · rw [said] at h
      cases h

theorem forecast_error {f : Failure} (h : forecast faults d dryRun top p = .error f) :
    (∃ why, f = .unreadable p why) ∨ ∃ why, f = .unwritable p why := by
  cases hr : faults.readText top p with
  | error why =>
    rw [forecast_unreadable hr] at h
    cases h
    exact Or.inl ⟨_, rfl⟩
  | ok t =>
    rcases forecast_text hr d dryRun with ⟨said, -⟩ | ⟨why, left, -, -, -, said⟩
    · rw [said] at h
      cases h
    · rw [said] at h
      cases h
      exact Or.inr ⟨why, rfl⟩

theorem path_forecast {o : Outcome} (h : forecast faults d dryRun top p = .ok o) : o.path = p := by
  obtain ⟨t, -, rfl⟩ := exists_of_forecast_ok h
  rfl

/-- A run that writes nothing and one whose writes meet no fault say the same. -/
theorem forecast_sound (h : dryRun = true ∨ faults.writing p = none) :
    forecast faults d dryRun top p = match faults.readText top p with
      | .error why => .error (.unreadable p why.message)
      | .ok t => .ok (outcomeOf d p t) := by
  cases hr : faults.readText top p with
  | error why => exact forecast_unreadable hr
  | ok t =>
    rcases forecast_text hr d dryRun with ⟨said, -⟩ | ⟨why, left, wet, -, fault, -⟩
    · exact said
    · rcases h with dry | none
      · rw [dry] at wet
        cases wet
      · rw [none] at fault
        cases fault

/-! ## What is left in one file -/

/-- What a run leaves of the content of the file at a path. A content that cannot be read, or that
guarding does not change, is not written. -/
def Faults.leave (faults : Faults) (d : Dialect) (p : Path) (old : ByteArray) : ByteArray :=
  if (faults.reading p).isSome ∨ (guardContent d old).data = old.data then old
  else match faults.writing p with
    | some (_, left) => left
    | none => guardContent d old

def Faults.leaveAt (faults : Faults) (d : Dialect) (files : List (Path × List Name)) (l : List Name)
    (old : ByteArray) : ByteArray :=
  match files.find? (·.2 = l) with
  | some f => faults.leave d f.1 old
  | none => old

def written (dryRun : Bool) (files : List (Path × List Name)) : List (Path × List Name) :=
  if dryRun then [] else files

namespace Faults

theorem leave_unreadable {why : String} (h : faults.reading p = some why) :
    faults.leave d p c = c :=
  if_pos (Or.inl (by rw [h]; rfl))

theorem leave_same (h : guardContent d c = c) : faults.leave d p c = c :=
  if_pos (Or.inr (congrArg ByteArray.data h))

theorem leave_error {why : Refusal} (hp : top.locate p = .ok loc)
    (hc : top.at? loc = some (.file c)) (h : faults.readText top p = .error why) :
    faults.leave d p c = c := by
  rw [readText] at h
  cases hr : faults.reading p with
  | some why => exact leave_unreadable hr
  | none =>
    rw [hr] at h
    exact leave_same (guardContent_of_none (Folder.readText_eq_error hp hc h).2)

theorem leave_fault {why : String} {left : ByteArray} (hr : faults.reading p = none)
    (h : guardContent d c ≠ c) (hf : faults.writing p = some (why, left)) :
    faults.leave d p c = left := by
  rw [leave, if_neg (by simp [hr, ← ByteArray.ext_iff, h]), hf]

theorem leave_sound (hr : faults.reading p = none)
    (h : guardContent d c ≠ c → faults.writing p = none) :
    faults.leave d p c = guardContent d c := by
  by_cases hs : guardContent d c = c
  · rw [leave_same hs, hs]
  · rw [leave, if_neg (by simp [hr, ← ByteArray.ext_iff, hs]), h hs]

theorem leaveAt_nil : faults.leaveAt d [] = fun _ old => old := rfl

theorem leaveAt_cons (f : Path × List Name) (l : List Name) :
    faults.leaveAt d (f :: files) l c =
      if f.2 = l then faults.leave d f.1 c else faults.leaveAt d files l c := by
  rw [leaveAt, List.find?_cons]
  by_cases h : f.2 = l <;> simp [h, leaveAt]

theorem leaveAt_of_notMem (h : loc ∉ files.map Prod.snd) : faults.leaveAt d files loc c = c := by
  induction files with
  | nil => rfl
  | cons f fs ih =>
    rw [List.map_cons, List.mem_cons, not_or] at h
    rw [leaveAt_cons, if_neg (Ne.symm h.1), ih h.2]

theorem leaveAt_of_mem (hn : (files.map Prod.snd).Nodup) (h : (p, loc) ∈ files) :
    faults.leaveAt d files loc c = faults.leave d p c := by
  induction files with
  | nil => cases h
  | cons f fs ih =>
    obtain ⟨fresh, hn⟩ := List.nodup_cons.1 hn
    rw [leaveAt_cons]
    rcases List.mem_cons.1 h with rfl | h
    · exact if_pos rfl
    · rw [if_neg fun same => fresh ?_, ih hn h]
      rw [same]
      exact List.mem_map_of_mem h

theorem leaveAt_congr (h : ∀ f ∈ files, f.2 = loc →
      faults'.reading f.1 = faults.reading f.1 ∧ faults'.writing f.1 = faults.writing f.1) :
    faults'.leaveAt d files loc c = faults.leaveAt d files loc c := by
  rw [leaveAt, leaveAt]
  cases found : files.find? (·.2 = loc) with
  | none => rfl
  | some f =>
    have here : f.2 = loc := by simpa using List.find?_some found
    obtain ⟨hr, hw⟩ := h f (List.mem_of_find?_eq_some found) here
    dsimp only
    rw [leave, leave, hr, hw]

end Faults

namespace Folder

theorem refill_leaveAt_singleton (hw : top.isProper) (hc : top.at? loc = some (.file c)) :
    top.refill (faults.leaveAt d [(p, loc)]) =
      top.refill (contentAt loc (faults.leave d p c)) := by
  refine refill_congr hw fun l old h => ?_
  rw [Faults.leaveAt_cons, contentAt]
  by_cases hl : loc = l
  · subst hl
    rw [hc] at h
    cases h
    rw [if_pos rfl, if_pos rfl]
  · rw [if_neg hl, if_neg (Ne.symm hl)]
    rfl

theorem refill_leaveAt_same (hw : top.isProper) (hc : top.at? loc = some (.file c))
    (h : faults.leave d p c = c) : top.refill (faults.leaveAt d (written dryRun [(p, loc)])) = top := by
  cases dryRun with
  | true => exact refill_id top
  | false => exact (refill_leaveAt_singleton hw hc).trans (by rw [h, refill_contentAt_self hw hc])

end Folder

theorem guardFile_eq (hw : top.isProper) (hp : top.locate p = .ok loc)
    (hc : top.at? loc = some (.file c)) (faults : Faults) (d : Dialect) (dryRun : Bool) :
    guardFile faults d dryRun p top = (forecast faults d dryRun top p,
      top.refill (faults.leaveAt d (written dryRun [(p, loc)]))) := by
  rw [guardFile, readSource_eq]
  cases hr : faults.readText top p with
  | error why =>
    rw [forecast_unreadable hr, Folder.refill_leaveAt_same hw hc (Faults.leave_error hp hc hr)]
    rfl
  | ok t =>
    obtain ⟨readable, ht⟩ := Faults.readText_eq_ok.1 hr
    obtain rfl := (Folder.readText_eq_ok hp hc).1 ht
    have new := guardContent_text d t
    dsimp only
    -- the text stays, or it is not to be written, or it is written and may meet a fault
    by_cases same : (guardText d t).output = t
    · rw [forecast, hr, Folder.refill_leaveAt_same hw hc
        (Faults.leave_same (guardContent_text_eq_self.2 same))]
      cases faults.writing p <;> simp [outcomeOf, same]
    · have changed := mt guardContent_text_eq_self.1 same
      cases dryRun with
      | true =>
        rw [forecast_sound (Or.inl rfl), hr, written, if_pos rfl, Faults.leaveAt_nil, Folder.refill_id]
        simp [outcomeOf]
      | false =>
        rw [written, if_neg Bool.false_ne_true, Folder.refill_leaveAt_singleton hw hc]
        rw [if_pos (by simpa using same), Faults.writeText]
        simp only [Folder.write_of_file hw hp hc]
        cases hf : faults.writing p with
        | none =>
          rw [forecast_sound (Or.inr hf), hr, Faults.leave_sound readable fun _ => hf, new]
          rfl
        | some fault =>
          obtain ⟨why, left⟩ := fault
          rw [forecast, hr, hf, Faults.leave_fault readable changed hf]
          simp [outcomeOf, same, Refusal.message, Except.toOption]

/-- Reading and writing the file itself is all that may fail, in any tree. -/
theorem guardFile_error {f : Failure} (h : (guardFile faults d dryRun p top).1 = .error f) :
    (∃ why, f = .unreadable p why) ∨ ∃ why, f = .unwritable p why := by
  rw [guardFile] at h
  cases hr : readSource faults top p with
  | error failed =>
    obtain ⟨why, -, rfl⟩ := readSource_eq_error_iff.1 hr
    rw [hr] at h
    cases h
    exact Or.inl ⟨_, rfl⟩
  | ok t =>
    rw [hr] at h
    dsimp only at h
    split at h
    · rcases hw : faults.writeText p (guardText d t).output top with ⟨why | done, after⟩
      · rw [hw] at h
        cases h
        exact Or.inr ⟨_, rfl⟩
      · rw [hw] at h
        cases h
    · cases h

theorem isFatal_guardFile {f : Failure} (h : (guardFile faults d dryRun p top).1 = .error f) :
    f.isFatal = false := by
  rcases guardFile_error h with ⟨why, rfl⟩ | ⟨why, rfl⟩ <;> rfl

/-! ## File after file -/

/-- No file ends a run. -/
theorem exists_guardFiles_ok (faults : Faults) (d : Dialect) (dryRun : Bool) (paths : List Path)
    (tally : Tally) (top : Folder) :
    ∃ tally' after, guardFiles faults d dryRun paths tally top = (.ok tally', after) := by
  induction paths generalizing tally top with
  | nil => exact ⟨tally, top, rfl⟩
  | cons p ps ih =>
    rw [guardFiles]
    rcases h : guardFile faults d dryRun p top with ⟨f | o, after⟩
    · dsimp only
      rw [isFatal_guardFile (congrArg Prod.fst h)]
      exact ih (tally.recordFailure p f) after
    · exact ih (tally.record o) after

def Tally.note (t : Tally) (p : Path) : Except Failure Outcome → Tally
  | .ok o => t.record o
  | .error f => t.recordFailure p f

theorem guardFiles_cons {paths : List Path}
    (h : guardFile faults d dryRun p top = (forecast faults d dryRun top p, after)) (tally : Tally) :
    guardFiles faults d dryRun (p :: paths) tally top =
      guardFiles faults d dryRun paths (tally.note p (forecast faults d dryRun top p)) after := by
  rw [guardFiles, h]
  cases hr : forecast faults d dryRun top p with
  | ok o => rfl
  | error f =>
    dsimp only
    rw [isFatal_guardFile ((congrArg Prod.fst h).trans hr)]
    rfl

theorem Faults.refill_leaveAt_cons {f : Path × List Name} (fresh : f.2 ∉ files.map Prod.snd)
    (faults : Faults) (d : Dialect) (dryRun : Bool) (top : Folder) :
    (top.refill (faults.leaveAt d (written dryRun [f]))).refill
        (faults.leaveAt d (written dryRun files)) =
      top.refill (faults.leaveAt d (written dryRun (f :: files))) := by
  rw [Folder.refill_refill]
  congr 1
  funext l old
  cases dryRun with
  | true => rfl
  | false =>
    simp only [written, Bool.false_eq_true, if_false, leaveAt_cons, leaveAt_nil]
    split
    · rename_i here
      rw [leaveAt_of_notMem (here ▸ fresh)]
    · rfl

/-- The run says of each file what is to be said of it in the tree before the run. -/
theorem guardFiles_eq (hw : top.isProper) (hl : ∀ f ∈ files, top.LeadsToFile f.1 f.2)
    (hn : (files.map Prod.snd).Nodup) (faults : Faults) (d : Dialect) (dryRun : Bool)
    (tally : Tally) : guardFiles faults d dryRun (files.map Prod.fst) tally top =
      (.ok ((files.map Prod.fst).foldl
          (fun t p => t.note p (forecast faults d dryRun top p)) tally),
        top.refill (faults.leaveAt d (written dryRun files))) := by
  induction files generalizing top tally with
  | nil =>
    have nothing : written dryRun [] = [] := ite_self _
    rw [nothing, Faults.leaveAt_nil, Folder.refill_id]
    rfl
  | cons f fs ih =>
    obtain ⟨⟨hp, c, hc⟩, later⟩ := List.forall_mem_cons.1 hl
    obtain ⟨fresh, hn⟩ := List.nodup_cons.1 hn
    rw [List.map_cons, guardFiles_cons (guardFile_eq hw hp hc faults d dryRun),
      ih (by rw [Folder.isProper_refill, hw])
        (fun g hg => Folder.leadsToFile_refill (later g hg)) hn,
      Faults.refill_leaveAt_cons fresh, List.foldl_cons]
    congr 2
    refine List.foldl_ext _ _ _ fun t q hq => ?_
    obtain ⟨g, hg, rfl⟩ := List.mem_map.1 hq
    have other : g.2 ∉ (written dryRun [f]).map Prod.snd := by
      cases dryRun with
      | true => exact List.not_mem_nil
      | false =>
        intro here
        exact fresh (List.mem_singleton.1 here ▸ List.mem_map_of_mem hg)
    have same : (top.refill (faults.leaveAt d (written dryRun [f]))).readText g.1 =
        top.readText g.1 :=
      Folder.readText_refill_of_eq (later g hg) fun c => Faults.leaveAt_of_notMem other
    rw [forecast_congr (Faults.readText_congr rfl same) rfl]

end CallGuard
