import CallGuard.Proofs.Tallies
set_option autoImplicit false

/-!
# Failures

A run that fails does so on its root or on a pattern, before it takes a file, and the tree is as it
was. After that each file fails for itself, and all others are guarded.
-/
namespace CallGuard

/-! ## Before the first file -/

def isGlob (pattern : String) : Bool := (Glob.ofPattern pattern).toBool

def InvalidPattern (patterns : List String) (f : Failure) : Prop :=
  ∃ pattern fault, patterns.find? (!isGlob ·) = some pattern ∧
    Glob.ofPattern pattern = .error fault ∧
    f = .configuration s!"invalid exclude pattern '{pattern}': {fault.message}"

theorem readExcludes_ok_iff {patterns : List String} :
    (∃ globs, Selection.readExcludes patterns = .ok globs) ↔
      ∀ pattern ∈ patterns, isGlob pattern := by
  induction patterns with
  | nil => exact iff_of_true ⟨[], rfl⟩ fun _ h => absurd h List.not_mem_nil
  | cons pattern patterns ih =>
    rw [Selection.readExcludes, List.forall_mem_cons, ← ih, isGlob]
    cases Glob.ofPattern pattern with
    | error fault => simp [Except.toBool]
    | ok glob => cases Selection.readExcludes patterns <;> simp [Except.toBool, Except.map]

theorem InvalidPattern.cons {pattern : String} {patterns : List String} {f : Failure}
    (valid : isGlob pattern) (h : InvalidPattern patterns f) :
    InvalidPattern (pattern :: patterns) f := by
  obtain ⟨first, fault, found, rest⟩ := h
  refine ⟨first, fault, ?_, rest⟩
  rw [List.find?_cons_of_neg (by rw [valid]; exact Bool.false_ne_true), found]

theorem InvalidPattern.exists {patterns : List String} {f : Failure}
    (h : InvalidPattern patterns f) :
    (∃ pattern ∈ patterns, isGlob pattern = false) ∧ ∃ what, f = .configuration what := by
  obtain ⟨first, fault, found, -, rfl⟩ := h
  have bad := List.find?_some found
  rw [Bool.not_eq_true'] at bad
  exact ⟨⟨first, List.mem_of_find?_eq_some found, bad⟩, _, rfl⟩

theorem invalidPattern_of_readExcludes {patterns : List String} {f : Failure}
    (h : Selection.readExcludes patterns = .error f) : InvalidPattern patterns f := by
  induction patterns with
  | nil => cases h
  | cons pattern patterns ih =>
    rw [Selection.readExcludes] at h
    cases hg : Glob.ofPattern pattern with
    | error fault =>
      rw [hg] at h
      cases h
      refine ⟨pattern, fault, List.find?_cons_of_pos ?_, hg, rfl⟩
      rw [isGlob, hg]
      rfl
    | ok glob =>
      rw [hg] at h
      cases hr : Selection.readExcludes patterns with
      | ok globs =>
        rw [hr] at h
        cases h
      | error f' =>
        rw [hr] at h
        cases h
        exact (ih hr).cons (by rw [isGlob, hg]; rfl)

/-- What stands between a run and its first file: the root is a directory, and then all patterns
are valid. -/
structure Gated {α : Type} (s : Settings) (root : Path) (top : Folder) (r : Except Failure α) :
    Prop where
  missing : r = .error (.missingRoot root) ↔ top.directory? root = none
  invalid : (∃ what, r = .error (.configuration what)) ↔
    (top.directory? root).isSome ∧ ∃ pattern ∈ s.excludes, isGlob pattern = false
  reports : (∃ a, r = .ok a) ↔
    (top.directory? root).isSome ∧ ∀ pattern ∈ s.excludes, isGlob pattern
  failure : ∀ f, r = .error f → f = .missingRoot root ∨ InvalidPattern s.excludes f

variable {s : Settings} {root : Path} {top after : Folder} {p : Path} {paths : List Path}
  {files : List (Path × List Name)} {faults : Faults} {report : RunReport}

theorem gated_candidatesBelow (faults : Faults) (s : Settings) (root : Path) (top : Folder) :
    Gated s root top (candidatesBelow faults s root top) := by
  rw [candidatesBelow, Selection.ofSettings]
  cases hd : top.directory? root with
  | none => constructor <;> simp [hd]
  | some inner =>
    have there : (top.directory? root).isSome := by rw [hd]; rfl
    cases hr : Selection.readExcludes s.excludes with
    | ok globs =>
      have valid := readExcludes_ok_iff.1 ⟨globs, hr⟩
      refine ⟨iff_of_false ?_ ?_, iff_of_false ?_ ?_, iff_of_true ⟨_, rfl⟩ ⟨there, valid⟩, ?_⟩
      · rintro ⟨⟩
      · rw [hd]; rintro ⟨⟩
      · rintro ⟨what, ⟨⟩⟩
      · rintro ⟨-, pattern, hp, bad⟩
        rw [valid pattern hp] at bad
        cases bad
      · rintro f ⟨⟩
    | error f =>
      have invalid := invalidPattern_of_readExcludes hr
      obtain ⟨⟨pattern, hp, bad⟩, what, rfl⟩ := invalid.exists
      refine ⟨iff_of_false ?_ ?_, iff_of_true ⟨_, rfl⟩ ⟨there, pattern, hp, bad⟩,
        iff_of_false ?_ ?_, ?_⟩
      · rintro ⟨⟩
      · rw [hd]; rintro ⟨⟩
      · rintro ⟨a, ⟨⟩⟩
      · rintro ⟨-, valid⟩
        rw [valid pattern hp] at bad
        cases bad
      · rintro f ⟨⟩
        exact Or.inr invalid

/-- What fails as the search for the files does is gated as the search is. -/
theorem Gated.congr {α β : Type} {r : Except Failure α} {r' : Except Failure β}
    (h : Gated s root top r) (failed : ∀ f, r' = .error f ↔ r = .error f)
    (went : (∃ b, r' = .ok b) ↔ ∃ a, r = .ok a) : Gated s root top r' := by
  obtain ⟨missing, invalid, reports, failure⟩ := h
  refine ⟨(failed _).trans missing, ?_, went.trans reports, fun f hf => failure f ((failed f).1 hf)⟩
  simp only [failed, invalid]

theorem gated_checkTreeOn (faults : Faults) (s : Settings) (root : Path) (top : Folder) :
    Gated s root top (checkTreeOn faults s root top) := by
  have gated := gated_candidatesBelow faults s root top
  rw [checkTreeOn]
  cases found : candidatesBelow faults s root top <;> rw [found] at gated <;>
    exact gated.congr (by simp [Except.map]) (by simp [Except.map])

example : checkTree { excludes := ["*.md", "[a"] } "app" mixedFolder = .error (.configuration
    "invalid exclude pattern '[a': Pattern syntax error near position 0: invalid range pattern") :=
  rfl

/-- Once the files are found, the run reports. -/
theorem exists_guardTreeOn_ok (found : candidatesBelow faults s root top = .ok paths) :
    ∃ report after, guardTreeOn faults s root top = (.ok report, after) := by
  obtain ⟨tally, after, ran⟩ := exists_guardFiles_ok faults s.dialect s.dryRun paths {} top
  rw [guardTreeOn, found]
  dsimp only
  rw [ran]
  exact ⟨_, after, rfl⟩

theorem gated_guardTreeOn (faults : Faults) (s : Settings) (root : Path) (top : Folder) :
    Gated s root top (guardTreeOn faults s root top).1 := by
  have gated := gated_candidatesBelow faults s root top
  cases found : candidatesBelow faults s root top with
  | error f =>
    rw [found] at gated
    rw [guardTreeOn_error found]
    exact gated.congr (by simp) (by simp)
  | ok paths =>
    obtain ⟨report, after, ran⟩ := exists_guardTreeOn_ok found
    rw [found] at gated
    rw [ran]
    exact gated.congr (by simp) (by simp)

theorem guardTreeOn_failed {f : Failure} (h : (guardTreeOn faults s root top).1 = .error f) :
    (guardTreeOn faults s root top).2 = top := by
  cases found : candidatesBelow faults s root top with
  | error f' => rw [guardTreeOn_error found]
  | ok paths =>
    obtain ⟨report, after, ran⟩ := exists_guardTreeOn_ok found
    rw [ran] at h
    cases h

/-! ## File by file -/

/-- A file is counted once, as failed when a failure of it is listed and as scanned when none is. -/
structure RunReport.Counts (r : RunReport) (paths : List Path) : Prop where
  failed : r.stats.failed = paths.countP (· ∈ r.failures.map FailedFile.path)
  scanned : r.stats.scanned = paths.countP (· ∉ r.failures.map FailedFile.path)
  modified : r.stats.modified = paths.countP (· ∈ r.files.map Outcome.path)
  guarded : r.stats.guarded = (r.files.map Outcome.guarded).sum

theorem countP_mem {l : List Path} (hp : paths.Nodup) (hl : l.Nodup) (h : l ⊆ paths) :
    paths.countP (· ∈ l) = l.length := by
  rw [List.countP_eq_length_filter]
  refine List.Perm.length_eq ((List.perm_ext_iff_of_nodup (hp.filter _) hl).2 fun p => ?_)
  rw [List.mem_filter, decide_eq_true_iff]
  exact ⟨fun hp => hp.2, fun hp => ⟨h hp, hp⟩⟩

theorem RunReport.AddsUp.counts (h : report.AddsUp paths) (hp : paths.Nodup) :
    report.Counts paths := by
  obtain ⟨files, failures, -⟩ := List.nodup_append.1 h.once
  have taken : report.failures.map FailedFile.path ⊆ paths := fun p hp => by
    obtain ⟨f, hf, rfl⟩ := List.mem_map.1 hp
    exact h.failuresTaken f hf
  have failed : report.stats.failed =
      paths.countP (· ∈ report.failures.map FailedFile.path) := by
    rw [countP_mem hp failures taken, List.length_map, h.failed_eq]
  refine ⟨failed, ?_, ?_, h.guarded_eq⟩
  · have total := h.found_eq
    have split := List.length_eq_countP_add_countP
      (fun p => decide (p ∈ report.failures.map FailedFile.path)) (l := paths)
    simp only [decide_eq_true_iff] at split
    rw [h.found] at total
    omega
  · rw [countP_mem hp files, List.length_map, h.modified_eq]
    intro p hp
    obtain ⟨o, ho, rfl⟩ := List.mem_map.1 hp
    exact h.filesTaken o ho

theorem filter_flatMap_of_mem {α : Type} {f : Path → List α} {key : α → Path}
    (hf : ∀ q, ∀ x ∈ f q, key x = q) (hn : paths.Nodup) (hp : p ∈ paths) :
    (paths.flatMap f).filter (key · = p) = f p := by
  have once : paths.filter (· = p) = [p] := by
    rw [List.filter_eq, List.count_eq_one_of_mem hn hp, List.replicate_one]
  rw [filter_flatMap_key hf, once, List.flatMap_singleton]

structure RunReport.Fails (r : RunReport) (p : Path) (f : Failure) : Prop where
  failures : r.failures.filter (·.path = p) = [⟨p, f.message⟩]
  files : r.files.filter (·.path = p) = []

/-- No failure of the file is listed, and the file itself is just when its text changes. -/
structure RunReport.Guards (r : RunReport) (d : Dialect) (p : Path) (t : Text) : Prop where
  failures : r.failures.filter (·.path = p) = []
  files : r.files.filter (·.path = p) =
    if (guardText d t).output = t then [] else [outcomeOf d p t]

section
variable (hn : paths.Nodup) (hp : p ∈ paths)
include hn hp

theorem files_about_runReport : (runReport faults s root top after paths).files.filter (·.path = p) =
    modifiedEntries (forecast faults s.dialect s.dryRun top p) := by
  rw [files_runReport]
  exact filter_flatMap_of_mem (fun _ _ => path_of_mem_modifiedEntries) hn hp

theorem failures_about_runReport :
    (runReport faults s root top after paths).failures.filter (·.path = p) =
      failureEntries p (forecast faults s.dialect s.dryRun top p) := by
  rw [failures_runReport]
  exact filter_flatMap_of_mem (fun _ _ => path_of_mem_failureEntries) hn hp

theorem fails_runReport {f : Failure}
    (said : forecast faults s.dialect s.dryRun top p = .error f) :
    (runReport faults s root top after paths).Fails p f := by
  refine ⟨?_, ?_⟩
  · rw [failures_about_runReport hn hp, said]
    rfl
  · rw [files_about_runReport hn hp, said]
    rfl

theorem guards_runReport {t : Text}
    (said : forecast faults s.dialect s.dryRun top p = .ok (outcomeOf s.dialect p t)) :
    (runReport faults s root top after paths).Guards s.dialect p t := by
  refine ⟨?_, ?_⟩
  · rw [failures_about_runReport hn hp, said]
    rfl
  · rw [files_about_runReport hn hp, said, modifiedEntries, outcomeOf]
    by_cases same : (guardText s.dialect t).output = t <;> simp [same]

end

/-- What a run makes of a file it has found, and what it says of it. -/
structure FileTaken (faults : Faults) (s : Settings) (top after : Folder) (r : RunReport)
    (p : Path) : Prop where
  unreadable : ∀ why, faults.readText top p = .error why →
    why = (faults.reading p).elim .notText .fault ∧ r.Fails p (.unreadable p why.message) ∧
      ∃ loc, top.locate p = .ok loc ∧ after.at? loc = top.at? loc
  readable : ∀ t, faults.readText top p = .ok t →
    (r.Guards s.dialect p t ∧
      faults.readText after p = .ok (if s.dryRun then t else (guardText s.dialect t).output)) ∨
    ∃ loc why left, s.dryRun = false ∧ (guardText s.dialect t).output ≠ t ∧
      top.locate p = .ok loc ∧ faults.writing p = some (why, left) ∧
      r.Fails p (.unwritable p why) ∧ after.at? loc = some (.file left)

theorem fileTaken_runReport {loc : List Name} (hp : (files.map Prod.fst).Nodup)
    (hn : (files.map Prod.snd).Nodup) (hf : (p, loc) ∈ files) (leads : top.LeadsToFile p loc) :
    FileTaken faults s top (faults.left s files top)
      (runReport faults s root top (faults.left s files top) (files.map Prod.fst)) p where
  unreadable why h := by
    have taken : p ∈ files.map Prod.fst := List.mem_map_of_mem hf
    have kept := at?_left_error (s := s) hn hf leads h
    obtain ⟨located, c, hc⟩ := leads
    exact ⟨Faults.readText_eq_error located hc h,
      fails_runReport hp taken (forecast_unreadable h), loc, located, kept⟩
  readable t h := by
    have taken : p ∈ files.map Prod.fst := List.mem_map_of_mem hf
    rcases forecast_text h s.dialect s.dryRun with
      ⟨said, sound⟩ | ⟨why, left, wet, changed, fault, said⟩
    · exact Or.inl ⟨guards_runReport hp taken said, readText_left_ok hn hf leads h sound⟩
    · exact Or.inr ⟨loc, why, left, wet, changed, leads.1, fault, fails_runReport hp taken said,
        at?_left_fault hn hf leads h wet changed fault⟩

/-- A run and a check fail on a root that is no directory and then on an invalid pattern, and on
nothing else; a run that fails leaves the tree as it was. A run that reports has taken each file it
has found, also where others have failed, and those failures are counted apart. -/
theorem failures_are_contained (hw : top.isProper) (faults : Faults) (s : Settings) (root : Path) :
    Gated s root top (guardTreeOn faults s root top).1 ∧
      Gated s root top (checkTreeOn faults s root top) ∧
      (∀ f, (guardTreeOn faults s root top).1 = .error f →
        (guardTreeOn faults s root top).2 = top) ∧
      ∀ report after, guardTreeOn faults s root top = (.ok report, after) →
        ∃ paths, candidatesBelow faults s root top = .ok paths ∧ report.Counts paths ∧
          ∀ p ∈ paths, FileTaken faults s top after report p := by
  refine ⟨gated_guardTreeOn faults s root top, gated_checkTreeOn faults s root top,
    fun f => guardTreeOn_failed, fun report after h => ?_⟩
  obtain ⟨files, found, leads, once, rfl, rfl⟩ := exists_of_guardTreeOn hw h
  have order := candidatesBelow_inOrder hw found
  have apart := Path.nodup_of_inOrder order
  refine ⟨_, found, (addsUp_runReport order).counts apart, fun p hp => ?_⟩
  obtain ⟨f, hf, rfl⟩ := List.mem_map.1 hp
  exact fileTaken_runReport apart once hf (leads f hf)

/-- The bytes that are no text and the locked file fail, and the file after them is guarded. -/
theorem failures_are_contained_mixedFolder : mixedFolder.isProper ∧ ∃ report after,
    guardTreeOn lockedFile {} "app" mixedFolder = (.ok report, after) ∧
      report.Fails "app/broken.swift" (.unreadable "app/broken.swift" Refusal.notText.message) ∧
      report.Guards Dialect.swift "app/main.swift" "print(1)\nprint(2)\n".toList ∧
      report.stats.failed = 2 ∧ report.stats.scanned = 3 := by
  have proper : mixedFolder.isProper := by decide
  have run := guardTreeOn_mixedFolder lockedFile rfl rfl false
  obtain ⟨-, -, -, reports⟩ := failures_are_contained proper lockedFile {} "app"
  obtain ⟨paths, found, counts, each⟩ := reports _ _ run
  rw [candidatesBelow_mixedFolder rfl rfl] at found
  cases found
  have broken := (each "app/broken.swift" (by decide)).unreadable .notText (by decide +kernel)
  have main := (each "app/main.swift" (by decide)).readable "print(1)\nprint(2)\n".toList
    (by decide +kernel)
  rcases main with ⟨main, -⟩ | ⟨loc, why, left, -, -, -, fault, -⟩
  · exact ⟨proper, _, _, run, broken.2.1, main, by decide +kernel, by decide +kernel⟩
  · cases fault

end CallGuard
