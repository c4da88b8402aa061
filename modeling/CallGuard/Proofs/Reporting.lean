import CallGuard.Proofs.Running
set_option autoImplicit false

/-!
# The run as a whole

A run that finds its files reports what it says of each of them, and leaves a tree of the same shape
with the new contents in it. What can be read of a file afterwards follows from what could be read
before and from the faults.
-/
namespace CallGuard

variable {faults faults' : Faults} {d : Dialect} {dryRun : Bool} {top : Folder} {p : Path}
  {loc : List Name} {c : ByteArray} {t : Text} {paths : List Path}
  {files : List (Path × List Name)}

/-! ## What is reported -/

def modifiedEntries : Except Failure Outcome → List Outcome
  | .ok o => if o.modified then [o] else []
  | .error _ => []

def failureEntries (p : Path) : Except Failure Outcome → List FailedFile
  | .ok _ => []
  | .error f => [⟨p, f.message⟩]

def residualEntries (faults : Faults) (d : Dialect) (top : Folder) (p : Path) : List Residual :=
  match faults.readText top p with
  | .error _ => []
  | .ok t => (uncovered d (splitLines t)).map fun u => ⟨p, u.line + 1, u.column + 1⟩

theorem mem_modifiedEntries {o : Outcome} {r : Except Failure Outcome} :
    o ∈ modifiedEntries r ↔ r = .ok o ∧ o.modified := by
  cases r with
  | error f => simp [modifiedEntries]
  | ok o' =>
    rw [modifiedEntries]
    split
    · rename_i h
      rw [List.mem_singleton, Except.ok.injEq]
      exact ⟨fun e => ⟨e.symm, e ▸ h⟩, fun e => e.1.symm⟩
    · rename_i h
      refine iff_of_false List.not_mem_nil ?_
      rintro ⟨e, hm⟩
      cases e
      exact h hm

theorem mem_failureEntries {r : Except Failure Outcome} {f : FailedFile} :
    f ∈ failureEntries p r ↔ ∃ e, r = .error e ∧ f = ⟨p, e.message⟩ := by
  cases r with
  | ok o => simp [failureEntries]
  | error e => simp [failureEntries]

theorem path_of_mem_modifiedEntries {o : Outcome}
    (h : o ∈ modifiedEntries (forecast faults d dryRun top p)) : o.path = p :=
  path_forecast (mem_modifiedEntries.1 h).1

theorem path_of_mem_failureEntries {r : Except Failure Outcome} {f : FailedFile}
    (h : f ∈ failureEntries p r) : f.path = p := by
  obtain ⟨e, -, rfl⟩ := mem_failureEntries.1 h
  rfl

theorem path_of_mem_residualEntries {r : Residual} (h : r ∈ residualEntries faults d top p) :
    r.path = p := by
  unfold residualEntries at h
  split at h
  · cases h
  · obtain ⟨u, -, rfl⟩ := List.mem_map.1 h
    rfl

/-- Entries that bear the path they come from can be told apart by it. -/
theorem filter_flatMap_key {α : Type} {f : Path → List α} {key : α → Path}
    (hf : ∀ q, ∀ x ∈ f q, key x = q) (p : Path) (paths : List Path) :
    (paths.flatMap f).filter (key · = p) = (paths.filter (· = p)).flatMap f := by
  induction paths with
  | nil => rfl
  | cons q qs ih =>
    rw [List.flatMap_cons, List.filter_append, ih, List.filter_cons]
    by_cases hq : q = p
    · have all : (f q).filter (key · = p) = f q := by
        rw [List.filter_eq_self]
        intro x hx
        rwa [hf q x hx, decide_eq_true_iff]
      rw [if_pos (decide_eq_true hq), List.flatMap_cons, all]
    · have none : (f q).filter (key · = p) = [] := by
        rw [List.filter_eq_nil_iff]
        intro x hx
        rwa [hf q x hx, decide_eq_true_iff]
      rw [if_neg (by rwa [decide_eq_true_iff]), none, List.nil_append]

theorem files_foldl_note (r : Path → Except Failure Outcome) (t : Tally) (paths : List Path) :
    (paths.foldl (fun t p => t.note p (r p)) t).files =
      t.files ++ paths.flatMap fun p => modifiedEntries (r p) := by
  induction paths generalizing t with
  | nil => exact (List.append_nil _).symm
  | cons p ps ih =>
    have note : (t.note p (r p)).files = t.files ++ modifiedEntries (r p) := by
      cases r p with
      | error f => exact (List.append_nil _).symm
      | ok o =>
        simp only [Tally.note, Tally.record, modifiedEntries]
        split
        · rfl
        · exact (List.append_nil _).symm
    rw [List.foldl_cons, ih, note, List.flatMap_cons, List.append_assoc]

theorem failures_foldl_note (r : Path → Except Failure Outcome) (t : Tally) (paths : List Path) :
    (paths.foldl (fun t p => t.note p (r p)) t).failures =
      t.failures ++ paths.flatMap fun p => failureEntries p (r p) := by
  induction paths generalizing t with
  | nil => exact (List.append_nil _).symm
  | cons p ps ih =>
    have note : (t.note p (r p)).failures = t.failures ++ failureEntries p (r p) := by
      cases r p with
      | error f => rfl
      | ok o => exact (List.append_nil _).symm
    rw [List.foldl_cons, ih, note, List.flatMap_cons, List.append_assoc]

theorem residual_checkFiles (faults : Faults) (d : Dialect) (top : Folder) (paths : List Path) :
    (checkFiles faults d top paths).residual = paths.flatMap (residualEntries faults d top) := by
  induction paths with
  | nil => rfl
  | cons p ps ih =>
    rw [checkFiles, List.flatMap_cons, ← ih, residualEntries, readSource_eq]
    cases faults.readText top p <;> rfl

/-! ## The whole run -/

variable {s : Settings} {root : Path} {selection : Selection} {base : List Name} {inner : Folder}

def runReport (faults : Faults) (s : Settings) (root : Path) (top after : Folder)
    (paths : List Path) : RunReport :=
  let tally : Tally :=
    paths.foldl (fun t p => t.note p (forecast faults s.dialect s.dryRun top p)) {}
  { root
    dryRun := s.dryRun
    found := paths.length
    stats := tally.stats
    files := tally.files
    failures := tally.failures
    coverage := checkFiles faults s.dialect after paths }

/-- The tree as a run leaves it that takes some files. -/
def Faults.left (faults : Faults) (s : Settings) (files : List (Path × List Name)) (top : Folder) :
    Folder :=
  top.refill (faults.leaveAt s.dialect (written s.dryRun files))

theorem candidatesBelow_eq_ok : candidatesBelow faults s root top = .ok paths ↔
    ∃ selection base inner, Selection.ofSettings s = .ok selection ∧ top.locate root = .ok base ∧
      top.at? base = some (.dir inner) ∧ paths = selection.candidates faults top root := by
  unfold candidatesBelow
  cases hd : top.directory? root with
  | none =>
    constructor
    · intro h
      cases h
    · rintro ⟨selection, base, inner, -, hp, hb, -⟩
      rw [Folder.directory?_eq_some.2 ⟨base, hp, hb⟩] at hd
      cases hd
  | some inner =>
    obtain ⟨base, hp, hb⟩ := Folder.directory?_eq_some.1 hd
    constructor
    · intro h
      cases hs : Selection.ofSettings s with
      | error f =>
        rw [hs] at h
        cases h
      | ok selection =>
        rw [hs] at h
        cases h
        exact ⟨selection, base, inner, rfl, hp, hb, rfl⟩
    · rintro ⟨selection, -, -, hs, -, -, rfl⟩
      rw [hs]
      rfl

/-- Which files are found does not depend on what they hold. -/
theorem candidatesBelow_refill (faults : Faults) (s : Settings) (root : Path)
    (f : List Name → ByteArray → ByteArray) (top : Folder) :
    candidatesBelow faults s root (top.refill f) = candidatesBelow faults s root top := by
  have there := Folder.directory?_refill f top root
  rw [candidatesBelow, candidatesBelow, ← Option.not_isSome, ← Option.not_isSome, there]
  simp only [Selection.candidates_refill]

theorem candidatesBelow_congr (hu : faults'.unlistable = faults.unlistable)
    (he : faults'.entry = faults.entry) (s : Settings) (root : Path) (top : Folder) :
    candidatesBelow faults' s root top = candidatesBelow faults s root top := by
  rw [candidatesBelow, candidatesBelow]
  simp only [Selection.candidates_congr hu he]

/-- The candidates lead to files, each to one of its own. -/
theorem exists_files (hw : top.isProper) (h : candidatesBelow faults s root top = .ok paths) :
    ∃ files : List (Path × List Name), paths = files.map Prod.fst ∧
      (∀ f ∈ files, top.LeadsToFile f.1 f.2) ∧ (files.map Prod.snd).Nodup := by
  obtain ⟨selection, base, inner, -, hp, hb, rfl⟩ := candidatesBelow_eq_ok.1 h
  have proper : inner.isProper := Folder.isProper_of_at? hw hb
  exact ⟨_, Selection.candidates_eq_files hp hb, Selection.files_leadToFile proper hp hb,
    Selection.nodup_files proper base⟩

theorem guardTreeOn_eq (hw : top.isProper)
    (h : candidatesBelow faults s root top = .ok (files.map Prod.fst))
    (hl : ∀ f ∈ files, top.LeadsToFile f.1 f.2) (hn : (files.map Prod.snd).Nodup) :
    guardTreeOn faults s root top =
      (.ok (runReport faults s root top (faults.left s files top) (files.map Prod.fst)),
        faults.left s files top) := by
  rw [guardTreeOn, h]
  dsimp only
  rw [guardFiles_eq hw hl hn]
  rfl

theorem guardTreeOn_error {f : Failure} (h : candidatesBelow faults s root top = .error f) :
    guardTreeOn faults s root top = (.error f, top) := by
  rw [guardTreeOn, h]

theorem exists_of_guardTreeOn {report : RunReport} {after : Folder} (hw : top.isProper)
    (h : guardTreeOn faults s root top = (.ok report, after)) :
    ∃ files : List (Path × List Name),
      candidatesBelow faults s root top = .ok (files.map Prod.fst) ∧
      (∀ f ∈ files, top.LeadsToFile f.1 f.2) ∧ (files.map Prod.snd).Nodup ∧
      after = faults.left s files top ∧
      report = runReport faults s root top after (files.map Prod.fst) := by
  cases hc : candidatesBelow faults s root top with
  | error f =>
    rw [guardTreeOn_error hc] at h
    cases h
  | ok paths =>
    obtain ⟨files, rfl, hl, hn⟩ := exists_files hw hc
    rw [guardTreeOn_eq hw hc hl hn] at h
    cases h
    exact ⟨files, rfl, hl, hn, rfl, rfl⟩

/-! ## What is left in a file -/

theorem left_dry (dry : s.dryRun = true) : faults.left s files top = top := by
  rw [Faults.left, written, if_pos dry, Faults.leaveAt_nil, Folder.refill_id]

section
variable (hn : (files.map Prod.snd).Nodup) (hf : (p, loc) ∈ files)
include hn hf

theorem at?_left_wet (hc : top.at? loc = some (.file c)) (wet : s.dryRun = false) :
    (faults.left s files top).at? loc = some (.file (faults.leave s.dialect p c)) := by
  rw [Faults.left, written, if_neg (Bool.eq_false_iff.1 wet), Folder.at?_refill_file hc,
    Faults.leaveAt_of_mem hn hf]

theorem at?_left_error (leads : top.LeadsToFile p loc) {why : Refusal}
    (h : faults.readText top p = .error why) :
    (faults.left s files top).at? loc = top.at? loc := by
  obtain ⟨hp, c, hc⟩ := leads
  cases dry : s.dryRun with
  | true => rw [left_dry dry]
  | false => rw [at?_left_wet hn hf hc dry, Faults.leave_error hp hc h, hc]

theorem readText_left_error (leads : top.LeadsToFile p loc) {why : Refusal}
    (h : faults.readText top p = .error why) :
    faults.readText (faults.left s files top) p = .error why := by
  rw [← h]
  refine Faults.readText_congr rfl
    (Folder.readText_congr (Folder.locate_refill _ _ _) fun l hp => ?_)
  rw [leads.1] at hp
  cases hp
  exact at?_left_error hn hf leads h

theorem readText_left_ok (leads : top.LeadsToFile p loc) (h : faults.readText top p = .ok t)
    (sound : s.dryRun = false → (guardText s.dialect t).output ≠ t → faults.writing p = none) :
    faults.readText (faults.left s files top) p =
      .ok (if s.dryRun then t else (guardText s.dialect t).output) := by
  obtain ⟨hp, c, hc⟩ := leads
  cases dry : s.dryRun with
  | true =>
    rw [left_dry dry, h]
    rfl
  | false =>
    obtain ⟨readable, ht⟩ := Faults.readText_eq_ok.1 h
    have hp' : (faults.left s files top).locate p = .ok loc := by
      rw [Faults.left, Folder.locate_refill, hp]
    obtain rfl := (Folder.readText_eq_ok hp hc).1 ht
    refine Faults.readText_eq_ok.2 ⟨readable,
      (Folder.readText_eq_ok hp' (at?_left_wet hn hf hc dry)).2 ?_⟩
    rw [Faults.leave_sound readable fun changed =>
      sound dry (mt guardContent_text_eq_self.2 changed), guardContent_text]
    rfl

theorem at?_left_fault (leads : top.LeadsToFile p loc) (h : faults.readText top p = .ok t)
    (wet : s.dryRun = false) (changed : (guardText s.dialect t).output ≠ t) {why : String}
    {rest : ByteArray} (hw : faults.writing p = some (why, rest)) :
    (faults.left s files top).at? loc = some (.file rest) := by
  obtain ⟨hp, c, hc⟩ := leads
  obtain ⟨readable, ht⟩ := Faults.readText_eq_ok.1 h
  obtain rfl := (Folder.readText_eq_ok hp hc).1 ht
  rw [at?_left_wet hn hf hc wet,
    Faults.leave_fault readable (mt guardContent_text_eq_self.1 changed) hw]

end

/-! ## A folder with failures -/

/-- Bytes that are no text, a text with nothing to guard, a statement that does not end, a text that
cannot be written, and two statements. -/
def mixedListing : Folder :=
  .file "broken.swift" ⟨#[0xFF]⟩
    (.file "kept.swift" "let b = 2\n".toUTF8
      (.dir "lib" (.file "tail.swift" "let a = 1\nprint(a,\n".toUTF8 .nil)
        (.file "locked.swift" "print(3)\n".toUTF8
          (.file "main.swift" "print(1)\nprint(2)\n".toUTF8 .nil))))

def mixedFolder : Folder := .dir "app" mixedListing .nil

def mixedFiles : List (Path × List Name) :=
  [("app/broken.swift", ["app", "broken.swift"]), ("app/kept.swift", ["app", "kept.swift"]),
    ("app/lib/tail.swift", ["app", "lib", "tail.swift"]),
    ("app/locked.swift", ["app", "locked.swift"]), ("app/main.swift", ["app", "main.swift"])]

def mixedPaths : List Path := mixedFiles.map Prod.fst

def lockedFile : Faults :=
  { Faults.nowhere with
    writing := fun p =>
      if p = "app/locked.swift" then
        some ("Permission denied (os error 13)", "print(3)\n".toUTF8)
      else none }

theorem candidatesBelow_mixedFolder (hu : faults.unlistable = fun _ => false)
    (he : faults.entry = fun _ => none) :
    candidatesBelow faults {} "app" mixedFolder = .ok mixedPaths := by
  have hs : Selection.ofSettings {} = .ok ⟨["swift"], []⟩ := rfl
  have hp : mixedFolder.locate "app" = .ok ["app"] := rfl
  have same : candidatesBelow faults {} "app" mixedFolder =
      candidatesBelow .nowhere {} "app" mixedFolder := candidatesBelow_congr hu he {} "app" mixedFolder
  rw [same]
  refine candidatesBelow_eq_ok.2 ⟨_, _, _, hs, hp, rfl, ?_⟩
  have walk : Selection.walk ⟨["swift"], []⟩ .nowhere "app" mixedListing =
      ([["broken.swift"], ["kept.swift"], ["lib", "tail.swift"], ["locked.swift"],
        ["main.swift"]] : List (List Name)) := by decide
  rw [Selection.candidates_of_directory hp rfl, Selection.taken, walk,
    List.mergeSort_of_pairwise (by decide)]
  decide

theorem mixedFiles_leadToFile : ∀ f ∈ mixedFiles, mixedFolder.LeadsToFile f.1 f.2 := by
  simp only [mixedFiles, List.forall_mem_cons]
  exact ⟨⟨rfl, _, rfl⟩, ⟨rfl, _, rfl⟩, ⟨rfl, _, rfl⟩, ⟨rfl, _, rfl⟩, ⟨rfl, _, rfl⟩, nofun⟩

theorem guardTreeOn_mixedFolder (faults : Faults) (hu : faults.unlistable = fun _ => false)
    (he : faults.entry = fun _ => none) (dryRun : Bool) :
    guardTreeOn faults { dryRun } "app" mixedFolder =
      (.ok (runReport faults { dryRun } "app" mixedFolder
        (faults.left { dryRun } mixedFiles mixedFolder) mixedPaths),
        faults.left { dryRun } mixedFiles mixedFolder) :=
  guardTreeOn_eq (s := { dryRun }) (by decide) (candidatesBelow_mixedFolder hu he)
    mixedFiles_leadToFile (by decide)

end CallGuard
