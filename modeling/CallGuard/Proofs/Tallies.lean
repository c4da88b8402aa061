import CallGuard.Proofs.Additions
import CallGuard.Proofs.Reporting
import CallGuard.Proofs.Ordering
import Mathlib.Algebra.GroupWithZero.Nat
set_option autoImplicit false

/-!
# The numbers in a report

A run counts while it goes from file to file and lists what it has modified and where it has failed.
The counts are those of the lists and of the candidates, because a text is modified just when a
block is put into it.
-/
namespace CallGuard

/-! ## One file -/

/-- What may be said of a text: it is modified when a statement of it is guarded and then only. -/
structure Outcome.Sound (o : Outcome) : Prop where
  modified_iff : o.modified ↔ 1 ≤ o.guarded
  ascending : o.unterminated.Pairwise (· < ·)
  positive : ∀ n ∈ o.unterminated, 1 ≤ n
  length_le : o.unterminated.length ≤ o.guarded

theorem output_ne_text_iff (d : Dialect) (t : Text) :
    (guardText d t).output ≠ t ↔ 1 ≤ (guardText d t).count := by
  have same := output_ne_iff (blocks_inOrder d (splitLines t)) (d := d)
  rw [← guardCalls_output d (splitLines t), joinLines_splitLines] at same
  exact same.trans List.length_pos_iff.symm

theorem unterminated_pairwise (d : Dialect) (ls : List Line) :
    (guardCalls d ls).unterminated.Pairwise (· < ·) := by
  refine List.Pairwise.filter _ (List.pairwise_map.2 ?_)
  refine (blocks_pairwise d ls).imp_of_mem fun {a b} ha _ h => ?_
  exact Nat.lt_of_le_of_lt (blocks_bounds ha).1 h

theorem length_unterminated_le (d : Dialect) (ls : List Line) :
    (guardCalls d ls).unterminated.length ≤ (guardCalls d ls).count := by
  refine (List.length_filter_le _ _).trans ?_
  rw [List.length_map]
  exact Nat.le_refl _

variable {faults : Faults} {d : Dialect} {dryRun : Bool} {top : Folder} {p : Path} {o : Outcome}

theorem sound_of_forecast (h : forecast faults d dryRun top p = .ok o) : o.Sound := by
  obtain ⟨t, -, rfl⟩ := exists_of_forecast_ok h
  refine ⟨?_, ?_, fun n hn => ?_, ?_⟩
  · exact bne_iff_ne.trans (output_ne_text_iff d t)
  · refine List.pairwise_map.2 ((unterminated_pairwise d (splitLines t)).imp fun h => ?_)
    exact Nat.succ_lt_succ h
  · obtain ⟨m, -, rfl⟩ := List.mem_map.1 hn
    exact Nat.succ_pos m
  · change (List.map _ _).length ≤ _
    rw [List.length_map]
    exact length_unterminated_le d (splitLines t)

/-! ## The counts -/

section
variable {said : Path → Except Failure Outcome} {t : Tally} {n : Nat} {paths : List Path}

structure Tally.AddsUp (t : Tally) (n : Nat) : Prop where
  total : t.stats.scanned + t.stats.failed = n
  failed : t.stats.failed = t.failures.length
  modified : t.stats.modified = t.files.length
  guarded : t.stats.guarded = (t.files.map Outcome.guarded).sum

theorem Tally.AddsUp.note (h : t.AddsUp n) (p : Path) {r : Except Failure Outcome}
    (hr : ∀ o, r = .ok o → o.Sound) : (t.note p r).AddsUp (n + 1) := by
  obtain ⟨total, failed, modified, guarded⟩ := h
  cases r with
  | error f =>
    refine ⟨?_, ?_, modified, guarded⟩
    · change t.stats.scanned + (t.stats.failed + 1) = n + 1
      omega
    · change t.stats.failed + 1 = (t.failures ++ [_]).length
      rw [List.length_append, failed]
      rfl
  | ok o =>
    have sound := hr o rfl
    simp only [Tally.note, Tally.record, Stats.record]
    cases hm : o.modified with
    | true =>
      refine ⟨by dsimp only; omega, failed, ?_, ?_⟩
      · simp [modified]
      · simp [guarded]
    | false =>
      -- nothing in an unmodified text is guarded, so it adds nothing to the sum
      have none : o.guarded = 0 := by
        have := mt sound.modified_iff.2 (by rw [hm]; exact Bool.false_ne_true)
        omega
      refine ⟨by dsimp only; omega, failed, modified, ?_⟩
      change t.stats.guarded + o.guarded = (t.files.map Outcome.guarded).sum
      rw [none, guarded, Nat.add_zero]

theorem Tally.AddsUp.foldl (hs : ∀ p o, said p = .ok o → o.Sound) (paths : List Path)
    (h : t.AddsUp n) :
    (paths.foldl (fun t p => t.note p (said p)) t).AddsUp (n + paths.length) := by
  induction paths generalizing t n with
  | nil => exact h
  | cons p ps ih =>
    have next := ih (h.note p (hs p))
    rwa [Nat.add_assoc, Nat.add_comm 1] at next

theorem scanned_foldl_note (said : Path → Except Failure Outcome) (t : Tally) (paths : List Path) :
    (paths.foldl (fun t p => t.note p (said p)) t).stats.scanned =
      t.stats.scanned + paths.countP fun p => (said p).toBool := by
  induction paths generalizing t with
  | nil => rfl
  | cons p ps ih =>
    rw [List.foldl_cons, ih, List.countP_cons]
    cases said p with
    | error f => rfl
    | ok o =>
      change t.stats.scanned + 1 + _ = _ + (_ + 1)
      omega

theorem checked_checkFiles (faults : Faults) (d : Dialect) (top : Folder) (paths : List Path) :
    (checkFiles faults d top paths).checked =
      paths.countP fun p => (faults.readText top p).toBool := by
  induction paths with
  | nil => rfl
  | cons p ps ih =>
    rw [checkFiles, List.countP_cons, readSource_eq]
    cases faults.readText top p with
    | error why => exact ih
    | ok t => exact congrArg (· + 1) ih

/-! ## The lists -/

/-- Entries of at most one for each path come in the order of the paths. -/
theorem map_flatMap_sublist {α : Type} {f : Path → List α} {key : α → Path}
    (h : ∀ p, (f p).map key = [] ∨ (f p).map key = [p]) (paths : List Path) :
    ((paths.flatMap f).map key).Sublist paths := by
  induction paths with
  | nil => exact .slnil
  | cons p ps ih =>
    rw [List.flatMap_cons, List.map_append]
    rcases h p with e | e
    · rw [e]
      exact ih.cons p
    · rw [e]
      exact ih.cons_cons p

end

/-! ## The report -/

/-- The counts are those of the lists and of the candidates, and the lists are disjoint parts of the
candidates in their order. -/
structure RunReport.AddsUp (r : RunReport) (paths : List Path) : Prop where
  found : r.found = paths.length
  found_eq : r.found = r.stats.scanned + r.stats.failed
  failed_eq : r.stats.failed = r.failures.length
  modified_eq : r.stats.modified = r.files.length
  guarded_eq : r.stats.guarded = (r.files.map Outcome.guarded).sum
  modified : ∀ o ∈ r.files, o.modified ∧ 1 ≤ o.guarded
  unterminated : ∀ o ∈ r.files, o.unterminated.Pairwise (· < ·) ∧ (∀ n ∈ o.unterminated, 1 ≤ n) ∧
    o.unterminated.length ≤ o.guarded
  filesTaken : ∀ o ∈ r.files, o.path ∈ paths
  failuresTaken : ∀ f ∈ r.failures, f.path ∈ paths
  filesInOrder : (r.files.map Outcome.path).Pairwise Path.Before
  failuresInOrder : (r.failures.map FailedFile.path).Pairwise Path.Before
  once : (r.files.map Outcome.path ++ r.failures.map FailedFile.path).Nodup

def RunReport.WritesAll (r : RunReport) : Prop :=
  ∀ p why, ⟨p, (Failure.unwritable p why).message⟩ ∉ r.failures

namespace Failure

theorem toList_append_reason (start shown why : String) :
    (s!"{start}{shown}: {why}").toList = start.toList ++ (shown ++ ": " ++ why).toList := by
  change (start ++ shown ++ ": " ++ why).toList = _
  rw [String.append_assoc, String.append_assoc, String.toList_append, ← String.append_assoc]

theorem message_unreadable_ne (p q : Path) (why why' : String) :
    (unreadable p why).message ≠ (unwritable q why').message := by
  intro h
  have same : "Error reading ".toList ++ (p.display ++ ": " ++ why).toList =
      "Error writing ".toList ++ (q.display ++ ": " ++ why').toList := by
    rw [← toList_append_reason, ← toList_append_reason]
    exact congrArg String.toList h
  have long : "Error reading ".toList.length = "Error writing ".toList.length := by decide
  exact absurd (String.toList_injective (List.append_inj same long).1) (by decide)

end Failure

section
variable {s : Settings} {root : Path} {after : Folder} {paths : List Path}
  {files : List (Path × List Name)} {loc : List Name} {report : RunReport}

theorem files_runReport (faults : Faults) (s : Settings) (root : Path) (top after : Folder)
    (paths : List Path) : (runReport faults s root top after paths).files =
      paths.flatMap fun p => modifiedEntries (forecast faults s.dialect s.dryRun top p) := by
  simp only [runReport, files_foldl_note, List.nil_append]

theorem failures_runReport (faults : Faults) (s : Settings) (root : Path) (top after : Folder)
    (paths : List Path) : (runReport faults s root top after paths).failures =
      paths.flatMap fun p => failureEntries p (forecast faults s.dialect s.dryRun top p) := by
  simp only [runReport, failures_foldl_note, List.nil_append]

theorem scanned_runReport (faults : Faults) (s : Settings) (root : Path) (top after : Folder)
    (paths : List Path) : (runReport faults s root top after paths).stats.scanned =
      paths.countP fun p => (forecast faults s.dialect s.dryRun top p).toBool := by
  simp only [runReport, scanned_foldl_note, Nat.zero_add]

theorem candidatesBelow_inOrder (hw : top.isProper) (h : candidatesBelow faults s root top = .ok paths) :
    paths.Pairwise Path.Before := by
  obtain ⟨selection, base, inner, -, hp, hb, rfl⟩ := candidatesBelow_eq_ok.1 h
  exact Selection.candidates_inOrder (Folder.isProper_of_at? hw hb) hp hb

theorem Path.nodup_of_inOrder (h : paths.Pairwise Path.Before) : paths.Nodup :=
  h.imp fun {p q} hpq => by
    rintro rfl
    exact before_irrefl p hpq

theorem mem_files_runReport {o : Outcome} : o ∈ (runReport faults s root top after paths).files ↔
    o.path ∈ paths ∧ forecast faults s.dialect s.dryRun top o.path = .ok o ∧ o.modified := by
  rw [files_runReport, List.mem_flatMap]
  constructor
  · rintro ⟨p, hp, h⟩
    obtain ⟨ho, hm⟩ := mem_modifiedEntries.1 h
    rw [path_forecast ho]
    exact ⟨hp, ho, hm⟩
  · rintro ⟨hp, ho, hm⟩
    exact ⟨o.path, hp, mem_modifiedEntries.2 ⟨ho, hm⟩⟩

theorem mem_failures_runReport {f : FailedFile} :
    f ∈ (runReport faults s root top after paths).failures ↔ ∃ p ∈ paths, ∃ e,
      forecast faults s.dialect s.dryRun top p = .error e ∧ f = ⟨p, e.message⟩ := by
  simp only [failures_runReport, List.mem_flatMap, mem_failureEntries]

theorem files_sublist (faults : Faults) (s : Settings) (root : Path) (top after : Folder)
    (paths : List Path) :
    ((runReport faults s root top after paths).files.map Outcome.path).Sublist paths := by
  rw [files_runReport]
  refine map_flatMap_sublist (fun p => ?_) paths
  cases ho : forecast faults s.dialect s.dryRun top p with
  | error f => exact Or.inl rfl
  | ok o =>
    rw [modifiedEntries]
    split
    · exact Or.inr (by rw [List.map_singleton, path_forecast ho])
    · exact Or.inl rfl

theorem failures_sublist (faults : Faults) (s : Settings) (root : Path) (top after : Folder)
    (paths : List Path) :
    ((runReport faults s root top after paths).failures.map FailedFile.path).Sublist paths := by
  rw [failures_runReport]
  refine map_flatMap_sublist (fun p => ?_) paths
  cases forecast faults s.dialect s.dryRun top p with
  | error f => exact Or.inr rfl
  | ok o => exact Or.inl rfl

/-- What has failed is not listed as modified. -/
theorem files_apart_failures {o : Outcome} {f : FailedFile}
    (ho : o ∈ (runReport faults s root top after paths).files)
    (hf : f ∈ (runReport faults s root top after paths).failures) : o.path ≠ f.path := by
  obtain ⟨-, said, -⟩ := mem_files_runReport.1 ho
  obtain ⟨p, -, e, failed, rfl⟩ := mem_failures_runReport.1 hf
  rintro rfl
  rw [said] at failed
  cases failed

theorem addsUp_runReport (hp : paths.Pairwise Path.Before) :
    (runReport faults s root top after paths).AddsUp paths := by
  have sound (p : Path) (o : Outcome)
      (h : forecast faults s.dialect s.dryRun top p = .ok o) : o.Sound :=
    sound_of_forecast h
  have counts := Tally.AddsUp.foldl (t := {}) (n := 0) sound paths ⟨rfl, rfl, rfl, rfl⟩
  rw [Nat.zero_add] at counts
  have files := files_sublist faults s root top after paths
  have failures := failures_sublist faults s root top after paths
  have once := Path.nodup_of_inOrder hp
  refine ⟨rfl, counts.total.symm, counts.failed, counts.modified, counts.guarded, fun o ho => ?_,
    fun o ho => ?_, fun o ho => (mem_files_runReport.1 ho).1, fun f hf => ?_, hp.sublist files,
    hp.sublist failures, List.nodup_append.2 ⟨once.sublist files, once.sublist failures, ?_⟩⟩
  · obtain ⟨-, said, hm⟩ := mem_files_runReport.1 ho
    exact ⟨hm, (sound _ o said).modified_iff.1 hm⟩
  · obtain ⟨-, said, -⟩ := mem_files_runReport.1 ho
    have sound := sound _ o said
    exact ⟨sound.ascending, sound.positive, sound.length_le⟩
  · obtain ⟨p, hmem, e, -, rfl⟩ := mem_failures_runReport.1 hf
    exact hmem
  · intro p hp q hq
    obtain ⟨o, ho, rfl⟩ := List.mem_map.1 hp
    obtain ⟨f, hf, rfl⟩ := List.mem_map.1 hq
    exact files_apart_failures ho hf

/-- A file whose write has not failed can be read afterwards just when it could before. -/
theorem readable_left (hn : (files.map Prod.snd).Nodup) (hf : (p, loc) ∈ files)
    (leads : top.LeadsToFile p loc)
    (hw : ∀ why, forecast faults s.dialect s.dryRun top p ≠ .error (.unwritable p why)) :
    (faults.readText (faults.left s files top) p).toBool =
      (forecast faults s.dialect s.dryRun top p).toBool := by
  cases h : faults.readText top p with
  | error why => rw [readText_left_error hn hf leads h, forecast_unreadable h]; rfl
  | ok t =>
    rcases forecast_text h s.dialect s.dryRun with ⟨said, sound⟩ | ⟨why, left, -, -, -, said⟩
    · rw [readText_left_ok hn hf leads h sound, said]
      rfl
    · exact absurd said (hw why)

/-- The messages tell a failure to read from one to write. -/
theorem writesAll_runReport : (runReport faults s root top after paths).WritesAll ↔ ∀ p ∈ paths,
    ∀ why, forecast faults s.dialect s.dryRun top p ≠ .error (.unwritable p why) := by
  constructor
  · intro h p hp why failed
    exact h p why (mem_failures_runReport.2 ⟨p, hp, _, failed, rfl⟩)
  · intro h q why listed
    obtain ⟨p, hp, e, failed, same⟩ := mem_failures_runReport.1 listed
    rw [FailedFile.mk.injEq] at same
    rcases forecast_error failed with ⟨why', rfl⟩ | ⟨why', rfl⟩
    · exact Failure.message_unreadable_ne p q why' why same.2.symm
    · exact h p hp why' failed

theorem writesAll_of_sound (h : s.dryRun = true ∨ ∀ p, faults.writing p = none) :
    (runReport faults s root top after paths).WritesAll := by
  refine writesAll_runReport.2 fun p _ why failed => ?_
  rw [forecast_sound (h.imp_right fun none => none p)] at failed
  split at failed <;> cases failed

/-- On any disk the numbers of a report fit its lists and the candidates. When no write has failed,
the check afterwards reads the files that the run has guarded; on a disk that takes every write and
in a dry run no write fails. -/
theorem reports_add_up (hw : top.isProper)
    (h : guardTreeOn faults s root top = (.ok report, after)) :
    ∃ paths, candidatesBelow faults s root top = .ok paths ∧ report.AddsUp paths ∧
      (report.WritesAll → report.coverage.checked = report.stats.scanned) ∧
      (s.dryRun = true ∨ (∀ p, faults.writing p = none) → report.WritesAll) := by
  obtain ⟨files, hc, hl, hn, rfl, rfl⟩ := exists_of_guardTreeOn hw h
  refine ⟨_, hc, addsUp_runReport (candidatesBelow_inOrder hw hc), fun written => ?_,
    writesAll_of_sound⟩
  change (checkFiles faults s.dialect _ (files.map Prod.fst)).checked = _
  rw [checked_checkFiles, scanned_runReport]
  refine List.countP_congr fun p hp => ?_
  obtain ⟨f, hf, rfl⟩ := List.mem_map.1 hp
  rw [readable_left hn hf (hl f hf) (writesAll_runReport.1 written f.1 hp)]

end

/-- The write to one of the files fails and leaves it as it was. The counts are those of the two
files that are guarded, of the one with nothing to guard and of the two that fail. -/
theorem reports_add_up_mixedFolder : mixedFolder.isProper ∧
    ∃ report after, guardTreeOn lockedFile {} "app" mixedFolder = (.ok report, after) ∧
      report.AddsUp mixedPaths ∧ report.stats = ⟨3, 2, 3, 2⟩ ∧
      report.files = [⟨"app/lib/tail.swift", 1, true, [2]⟩, ⟨"app/main.swift", 2, true, []⟩] := by
  have run := guardTreeOn_mixedFolder lockedFile rfl rfl false
  obtain ⟨paths, found, adds, -⟩ := reports_add_up (by decide) run
  rw [candidatesBelow_mixedFolder rfl rfl] at found
  cases found
  exact ⟨by decide, _, _, run, adds, by decide +kernel, by decide +kernel⟩

end CallGuard
