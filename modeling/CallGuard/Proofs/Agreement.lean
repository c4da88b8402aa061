import CallGuard.Program
import CallGuard.Proofs.Residual
import CallGuard.Proofs.Tallies
set_option autoImplicit false

/-!
# Runs that agree

Which files are found depends on the names in a tree and not on what its files hold, so the same
ones are found before and after a run. A dry run foretells the real one, and a check after a run
finds what the run has reported.
-/
namespace CallGuard

variable {s s' : Settings} {root : Path} {top after : Folder} {d : Dialect} {ls : List Line}
  {paths : List Path} {files : List (Path × List Name)} {faults : Faults} {report : RunReport}

/-! ## The files found -/

theorem candidatesBelow_of_settings (he : s'.extensions = s.extensions) (hx : s'.excludes = s.excludes)
    (faults : Faults) (root : Path) (top : Folder) :
    candidatesBelow faults s' root top = candidatesBelow faults s root top := by
  rw [candidatesBelow, candidatesBelow, Selection.ofSettings, Selection.ofSettings, he, hx]

theorem checkTreeOn_left (h : candidatesBelow faults s root top = .ok paths)
    (files : List (Path × List Name)) : checkTreeOn faults s root (faults.left s files top) =
      .ok (checkFiles faults s.dialect (faults.left s files top) paths) := by
  have found : candidatesBelow faults s root (faults.left s files top) = .ok paths := by
    rw [Faults.left, candidatesBelow_refill, h]
  rw [checkTreeOn, found]
  rfl

theorem checkTreeOn_congr (he : s'.extensions = s.extensions) (hx : s'.excludes = s.excludes)
    (hd : s'.dialect = s.dialect) (faults : Faults) (root : Path) (top : Folder) :
    checkTreeOn faults s' root top = checkTreeOn faults s root top := by
  rw [checkTreeOn, checkTreeOn, candidatesBelow_of_settings he hx, hd]

/-! ## A dry run and a real one -/

/-- All that a run has counted and listed. What calls are left is not part of it. -/
structure RunReport.Foretells (dry wet : RunReport) : Prop where
  root : wet.root = dry.root
  found : wet.found = dry.found
  stats : wet.stats = dry.stats
  files : wet.files = dry.files
  failures : wet.failures = dry.failures

theorem foretells_runReport (sound : ∀ p, faults.writing p = none) (s : Settings) (root : Path)
    (top after after' : Folder) (paths : List Path) :
    (runReport faults { s with dryRun := true } root top after paths).Foretells
      (runReport faults { s with dryRun := false } root top after' paths) := by
  have same (p : Path) : forecast faults s.dialect false top p = forecast faults s.dialect true top p := by
    rw [forecast_sound (Or.inl rfl), forecast_sound (Or.inr (sound p))]
  constructor <;> simp only [runReport, same]

/-- On a disk that takes every write a dry run ends with the failure of the real one, or it reports
what the real one reports. The calls that each of them finds left are those of the tree as it leaves
it. -/
theorem dryRun_foretells (hw : top.isProper) (sound : ∀ p, faults.writing p = none) (s : Settings)
    (root : Path) :
    (∃ f, guardTreeOn faults { s with dryRun := true } root top = (.error f, top) ∧
      guardTreeOn faults { s with dryRun := false } root top = (.error f, top)) ∨
    ∃ dry wet after, guardTreeOn faults { s with dryRun := true } root top = (.ok dry, top) ∧
      guardTreeOn faults { s with dryRun := false } root top = (.ok wet, after) ∧
      dry.Foretells wet ∧ checkTreeOn faults s root top = .ok dry.coverage ∧
      checkTreeOn faults s root after = .ok wet.coverage := by
  cases found : candidatesBelow faults s root top with
  | error f =>
    exact Or.inl ⟨f, guardTreeOn_error (s := { s with dryRun := true }) found,
      guardTreeOn_error (s := { s with dryRun := false }) found⟩
  | ok paths =>
    obtain ⟨files, rfl, leads, once⟩ := exists_files hw found
    have dry := guardTreeOn_eq (s := { s with dryRun := true }) hw found leads once
    have wet := guardTreeOn_eq (s := { s with dryRun := false }) hw found leads once
    rw [left_dry rfl] at dry
    refine Or.inr ⟨_, _, _, dry, wet, foretells_runReport sound s root top _ _ _, ?_,
      checkTreeOn_left (s := { s with dryRun := false }) found files⟩
    rw [checkTreeOn, found]
    rfl

/-- The dry run leaves four calls where they are, and the real one guards them. -/
theorem dryRun_foretells_mixedFolder : mixedFolder.isProper ∧ ∃ dry wet after,
    guardTree { dryRun := true } "app" mixedFolder = (.ok dry, mixedFolder) ∧
      guardTree { dryRun := false } "app" mixedFolder = (.ok wet, after) ∧ dry.Foretells wet ∧
      dry.stats = ⟨4, 3, 4, 1⟩ ∧ dry.coverage.residual.length = 4 ∧ wet.coverage.residual = [] := by
  have dry := guardTreeOn_mixedFolder .nowhere rfl rfl true
  have wet := guardTreeOn_mixedFolder .nowhere rfl rfl false
  have proper : mixedFolder.isProper := by decide
  have sound : ∀ p, Faults.nowhere.writing p = none := fun _ => rfl
  rcases dryRun_foretells proper sound {} "app" with ⟨f, failed, -⟩ | ⟨_, _, _, dry', wet', same, -⟩
  · cases dry.symm.trans failed
  · cases dry.symm.trans dry'
    cases wet.symm.trans wet'
    exact ⟨proper, _, _, _, dry, wet, same, by decide +kernel, by decide +kernel, by decide +kernel⟩

/-! ## The calls left -/

theorem uncovered_inOrder (d : Dialect) (ls : List Line) :
    (uncovered d ls).Pairwise fun u v => u.line < v.line := by
  rw [uncovered_eq, callsFrom]
  refine List.Pairwise.filter _ (List.pairwise_filterMap.2 ?_)
  have lines : (ls.zipIdx.map Prod.snd).Pairwise (· < ·) := by
    rw [List.zipIdx_map_snd]
    exact List.pairwise_lt_range'
  refine (List.pairwise_map.1 lines).imp fun {a b} h u hu v hv => ?_
  obtain ⟨-, -, rfl⟩ := Option.map_eq_some_iff.1 hu
  obtain ⟨-, -, rfl⟩ := Option.map_eq_some_iff.1 hv
  exact h

theorem mem_uncovered {u : Uncovered} : u ∈ uncovered d ls ↔ ∃ l, ls[u.line]? = some l ∧
    callColumn? d l = some u.column ∧ isCovered d ls u.line = false := by
  rw [uncovered_eq, List.mem_filter, callsFrom, List.mem_filterMap, Bool.not_eq_true']
  constructor
  · rintro ⟨⟨⟨l, i⟩, hl, hu⟩, bare⟩
    obtain ⟨column, hc, rfl⟩ := Option.map_eq_some_iff.1 hu
    exact ⟨l, List.mem_zipIdx_iff_getElem?.1 hl, hc, bare⟩
  · rintro ⟨l, hl, hc, bare⟩
    refine ⟨⟨(l, u.line), List.mem_zipIdx_iff_getElem?.2 hl, ?_⟩, bare⟩
    dsimp only
    rw [hc]
    rfl

/-- By path, and then by line. -/
def Residual.Before (a b : Residual) : Prop :=
  a.path.Before b.path ∨ a.path = b.path ∧ a.line < b.line

/-- Stands at the first call of its line, which no guard covers. -/
structure Residual.Stands (r : Residual) (d : Dialect) (t : Text) : Prop where
  line : 1 ≤ r.line
  column : 1 ≤ r.column
  call : ∃ l, (splitLines t)[r.line - 1]? = some l ∧ callColumn? d l = some (r.column - 1)
  bare : isCovered d (splitLines t) (r.line - 1) = false

/-- What a check says of some files: how many can be read, and the calls left in them, in order. -/
structure CoverageReport.Describes (c : CoverageReport) (faults : Faults) (d : Dialect)
    (top : Folder) (paths : List Path) : Prop where
  checked : c.checked = paths.countP fun p => (faults.readText top p).toBool
  mem_residual : ∀ r, r ∈ c.residual ↔
    r.path ∈ paths ∧ ∃ t, faults.readText top r.path = .ok t ∧ r.Stands d t
  inOrder : c.residual.Pairwise Residual.Before

theorem mem_residualEntries {p : Path} {r : Residual} : r ∈ residualEntries faults d top p ↔
    r.path = p ∧ ∃ t, faults.readText top p = .ok t ∧ r.Stands d t := by
  rw [residualEntries]
  cases faults.readText top p with
  | error why =>
    refine iff_of_false List.not_mem_nil ?_
    rintro ⟨-, t, h, -⟩
    cases h
  | ok t =>
    dsimp only
    rw [List.mem_map]
    constructor
    · rintro ⟨u, hu, rfl⟩
      obtain ⟨l, hl, hc, bare⟩ := mem_uncovered.1 hu
      exact ⟨rfl, t, rfl, Nat.succ_pos _, Nat.succ_pos _, ⟨l, hl, hc⟩, bare⟩
    · rintro ⟨rfl, t, same, line, column, ⟨l, hl, hc⟩, bare⟩
      cases same
      refine ⟨⟨r.line - 1, r.column - 1⟩, mem_uncovered.2 ⟨l, hl, hc, bare⟩, ?_⟩
      rw [Nat.sub_add_cancel line, Nat.sub_add_cancel column]

theorem residualEntries_inOrder (faults : Faults) (d : Dialect) (top : Folder) (p : Path) :
    (residualEntries faults d top p).Pairwise Residual.Before := by
  rw [residualEntries]
  cases faults.readText top p with
  | error why => exact .nil
  | ok t =>
    refine List.pairwise_map.2 ((uncovered_inOrder d (splitLines t)).imp fun h => ?_)
    exact Or.inr ⟨rfl, Nat.succ_lt_succ h⟩

theorem describes_checkFiles (hp : paths.Pairwise Path.Before) (faults : Faults) (d : Dialect)
    (top : Folder) : (checkFiles faults d top paths).Describes faults d top paths where
  checked := checked_checkFiles faults d top paths
  mem_residual r := by
    rw [residual_checkFiles, List.mem_flatMap]
    simp only [mem_residualEntries]
    constructor
    · rintro ⟨p, hp, rfl, stands⟩
      exact ⟨hp, stands⟩
    · rintro ⟨hp, stands⟩
      exact ⟨r.path, hp, rfl, stands⟩
  inOrder := by
    rw [residual_checkFiles, List.pairwise_flatMap]
    refine ⟨fun p _ => residualEntries_inOrder faults d top p,
      hp.imp fun {p q} h a ha b hb => Or.inl ?_⟩
    rw [(mem_residualEntries.1 ha).1, (mem_residualEntries.1 hb).1]
    exact h

/-! ## A check after a run -/

/-- A report that cannot be presented names a call, so the check fails without it too. -/
theorem status_runCheck {c : CoverageReport} (h : checkTreeOn faults s root top = .ok c)
    (terminal : Bool) :
    (runCheck faults s terminal true root top).status = if c.residual = [] then 0 else 1 := by
  rw [runCheck, h]
  dsimp only
  cases hr : c.residual with
  | nil => cases hf : s.format <;>
      simp [Settings.present, Printed.ofReport, CoverageReport.paths, CoverageReport.count, hr, hf]
  | cons r rs =>
    cases s.present c.paths c.toJson (c.toText (s.style terminal)) <;>
      simp [Printed.ofReport, Printed.ofFailure, CoverageReport.count, hr]

/-- On any disk, and after a dry run too, a check for the same files with the same dialect finds the
calls left that the run has reported. When calls are denied it fails just when there are some. -/
theorem check_agrees_with_run (hw : top.isProper)
    (h : guardTreeOn faults s root top = (.ok report, after)) (s' : Settings)
    (he : s'.extensions = s.extensions) (hx : s'.excludes = s.excludes)
    (hd : s'.dialect = s.dialect) :
    checkTreeOn faults s' root after = .ok report.coverage ∧
      (∃ paths, candidatesBelow faults s root top = .ok paths ∧
        report.coverage.Describes faults s.dialect after paths) ∧
      ∀ terminal, (runCheck faults s' terminal true root after).status =
        if report.coverage.residual = [] then 0 else 1 := by
  obtain ⟨files, found, -, -, rfl, rfl⟩ := exists_of_guardTreeOn hw h
  have check : checkTreeOn faults s' root (faults.left s files top) =
      .ok (checkFiles faults s.dialect (faults.left s files top) (files.map Prod.fst)) := by
    rw [checkTreeOn_congr he hx hd, checkTreeOn_left found]
  exact ⟨check, ⟨_, found, describes_checkFiles (candidatesBelow_inOrder hw found) _ _ _⟩,
    status_runCheck check⟩

/-- What cannot be written is left to be found by the check. -/
theorem check_agrees_with_run_mixedFolder : mixedFolder.isProper ∧ ∃ report after,
    guardTreeOn lockedFile {} "app" mixedFolder = (.ok report, after) ∧
      checkTreeOn lockedFile { format := .json } "app" after = .ok report.coverage ∧
      report.coverage = ⟨4, [⟨"app/locked.swift", 1, 1⟩]⟩ ∧
      (runCheck lockedFile { format := .json } false true "app" after).status = 1 := by
  have run := guardTreeOn_mixedFolder lockedFile rfl rfl false
  have proper : mixedFolder.isProper := by decide
  obtain ⟨check, -, status⟩ := check_agrees_with_run proper run { format := .json } rfl rfl rfl
  have left : (runReport lockedFile {} "app" mixedFolder
      (lockedFile.left {} mixedFiles mixedFolder) mixedPaths).coverage =
        ⟨4, [⟨"app/locked.swift", 1, 1⟩]⟩ := by decide +kernel
  refine ⟨proper, _, _, run, check, left, ?_⟩
  rw [status, left]
  rfl

end CallGuard
