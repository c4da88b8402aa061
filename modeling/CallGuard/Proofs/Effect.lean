import CallGuard.Proofs.Reporting
set_option autoImplicit false

/-!
# What a run does to the tree

A run changes the texts of the files it lists and nothing else, and what it does to one file and
says of it depends on that file alone.
-/
namespace CallGuard

/-- The location of one of the files that a run lists, where the disk lets it be read. -/
def Selection.Lists (s : Selection) (faults : Faults) (top : Folder) (root : Path)
    (loc : List Name) : Prop :=
  ∃ p ∈ s.candidates faults top root, faults.reading p = none ∧ top.locate p = .ok loc

/-- Two trees that differ in the listed texts only, which are guarded in the second. -/
structure GuardsTexts (d : Dialect) (listed : List Name → Prop) (top after : Folder) : Prop where
  shape : after.shape = top.shape
  guarded : ∀ loc t, listed loc → top.at? loc = some (.file (String.ofList t).toUTF8) →
    after.at? loc = some (.file (String.ofList (guardText d t).output).toUTF8)
  notText : ∀ loc c, String.fromUTF8? c = none → top.at? loc = some (.file c) →
    after.at? loc = some (.file c)
  unlisted : ∀ loc c, ¬listed loc → top.at? loc = some (.file c) → after.at? loc = some (.file c)

/-- What a report says of one file: whether it is modified, whether it has failed, and which of its
calls are left. -/
def RunReport.about (r : RunReport) (p : Path) : List Outcome × List FailedFile × List Residual :=
  (r.files.filter (·.path = p), r.failures.filter (·.path = p),
    r.coverage.residual.filter (·.path = p))

section
variable {s : Settings} {root : Path} {top top' after after' inner : Folder} {base loc : List Name}
  {selection : Selection} {d : Dialect} {files : List (Path × List Name)} {p : Path}
  {c : ByteArray} {report : RunReport} {faults faults' : Faults}

theorem lists_iff (hw : inner.isProper) (hp : top.locate root = .ok base)
    (hb : top.at? base = some (.dir inner)) : selection.Lists faults top root loc ↔
      faults.unlistable root = false ∧ ∃ chain, loc = base ++ chain ∧
        selection.Takes faults root [] inner chain ∧ faults.reading (root.below chain) = none := by
  rw [Selection.Lists, Selection.candidates_of_directory hp hb]
  constructor
  · rintro ⟨p, hmem, readable, located⟩
    obtain ⟨chain, taken, rfl⟩ := List.mem_map.1 hmem
    obtain ⟨listable, takes⟩ := (Selection.mem_taken hw).1 taken
    obtain ⟨c, hc⟩ := takes.file
    rw [Folder.locate_below hw hp hb hc fun t h => by cases h] at located
    cases located
    exact ⟨listable, chain, rfl, takes, readable⟩
  · rintro ⟨listable, chain, rfl, takes, readable⟩
    obtain ⟨c, hc⟩ := takes.file
    exact ⟨root.below chain, List.mem_map_of_mem ((Selection.mem_taken hw).2 ⟨listable, takes⟩),
      readable, Folder.locate_below hw hp hb hc fun t h => by cases h⟩

theorem locate_of_shape_eq (shape : top'.shape = top.shape) : top'.locate p = top.locate p :=
  Folder.eq_of_shape_eq (·.locate p) (fun f top => Folder.locate_refill f top p) shape

theorem guardsTexts_refill {listed : List Name → Prop} (sound : ∀ p, faults.writing p = none)
    (hn : (files.map Prod.snd).Nodup)
    (h : ∀ loc, listed loc ↔ ∃ p, (p, loc) ∈ files ∧ faults.reading p = none) :
    GuardsTexts d listed top (top.refill (faults.leaveAt d files)) where
  shape := Folder.shape_refill _ _
  guarded loc t hl hc := by
    obtain ⟨p, hf, readable⟩ := (h loc).1 hl
    rw [Folder.at?_refill_file hc, Faults.leaveAt_of_mem hn hf,
      Faults.leave_sound readable fun _ => sound p, guardContent_text]
  notText loc c none hc := by
    rw [Folder.at?_refill_file hc]
    by_cases hl : loc ∈ files.map Prod.snd
    · obtain ⟨f, hf, rfl⟩ := List.mem_map.1 hl
      rw [Faults.leaveAt_of_mem hn hf, Faults.leave_same (guardContent_of_none none)]
    · rw [Faults.leaveAt_of_notMem hl]
  unlisted loc c hl hc := by
    rw [Folder.at?_refill_file hc]
    by_cases taken : loc ∈ files.map Prod.snd
    · obtain ⟨f, hf, rfl⟩ := List.mem_map.1 taken
      rw [Faults.leaveAt_of_mem hn hf]
      -- one of the files that is not listed is one that the disk does not let be read
      cases refused : faults.reading f.1 with
      | none => exact absurd ((h f.2).2 ⟨f.1, hf, refused⟩) hl
      | some why => rw [Faults.leave_unreadable refused]
    · rw [Faults.leaveAt_of_notMem taken]

/-! ## One file at a time -/

theorem filter_flatMap_congr {α : Type} {f g : Path → List α} {key : α → Path}
    (hf : ∀ q, ∀ x ∈ f q, key x = q) (hg : ∀ q, ∀ x ∈ g q, key x = q) (h : f p = g p)
    (paths : List Path) : (paths.flatMap f).filter (key · = p) = (paths.flatMap g).filter (key · = p) := by
  rw [filter_flatMap_key hf, filter_flatMap_key hg]
  refine List.flatMap_congr fun q hq => ?_
  rw [of_decide_eq_true (List.mem_filter.1 hq).2, h]

theorem about_runReport (h : faults'.readText top' p = faults.readText top p)
    (h' : faults'.readText after' p = faults.readText after p)
    (hw : faults'.writing p = faults.writing p) (paths : List Path) :
    (runReport faults' s root top' after' paths).about p =
      (runReport faults s root top after paths).about p := by
  have said : forecast faults' s.dialect s.dryRun top' p = forecast faults s.dialect s.dryRun top p :=
    forecast_congr h hw
  have left : residualEntries faults' s.dialect after' p =
      residualEntries faults s.dialect after p := by
    rw [residualEntries, residualEntries, h']
  simp only [RunReport.about, runReport, files_foldl_note, failures_foldl_note,
    residual_checkFiles, List.nil_append]
  refine Prod.ext ?_ (Prod.ext ?_ ?_)
  · exact filter_flatMap_congr (fun _ _ => path_of_mem_modifiedEntries)
      (fun _ _ => path_of_mem_modifiedEntries) (by rw [said]) paths
  · exact filter_flatMap_congr (fun _ _ => path_of_mem_failureEntries)
      (fun _ _ => path_of_mem_failureEntries) (by rw [said]) paths
  · exact filter_flatMap_congr (fun _ _ => path_of_mem_residualEntries)
      (fun _ _ => path_of_mem_residualEntries) left paths

/-- What a run does to one file and says of it depends on that file and on what the disk refuses
there. -/
theorem left_congr (located : ∀ p, top'.locate p = top.locate p)
    (leads : ∀ f ∈ files, top.LeadsToFile f.1 f.2) (hl : top.locate p = .ok loc)
    (same : top'.at? loc = top.at? loc)
    (alike : ∀ q l, top.locate q = .ok (loc ++ l) →
      faults'.reading q = faults.reading q ∧ faults'.writing q = faults.writing q)
    (paths : List Path) :
    (faults'.left s files top').at? loc = (faults.left s files top).at? loc ∧
      (runReport faults' s root top' (faults'.left s files top') paths).about p =
        (runReport faults s root top (faults.left s files top) paths).about p := by
  have contents : (fun l => faults'.leaveAt s.dialect (written s.dryRun files) (loc ++ l)) =
      fun l => faults.leaveAt s.dialect (written s.dryRun files) (loc ++ l) := by
    funext l c
    refine Faults.leaveAt_congr fun f hf here => alike f.1 l ?_
    have taken : f ∈ files := by
      rw [written] at hf
      split at hf
      · cases hf
      · exact hf
    rw [(leads f taken).1, here]
  have kept : (faults'.left s files top').at? loc = (faults.left s files top).at? loc := by
    rw [Faults.left, Faults.left, Folder.at?_refill, Folder.at?_refill, same, contents]
  have located' : (faults'.left s files top').locate p = (faults.left s files top).locate p := by
    rw [Faults.left, Faults.left, Folder.locate_refill, Folder.locate_refill, located]
  have here := alike p [] (by rw [hl, List.append_nil])
  refine ⟨kept, about_runReport
    (Faults.readText_congr here.1 (Folder.readText_congr (located p) fun l h => ?_))
    (Faults.readText_congr here.1 (Folder.readText_congr located' fun l h => ?_)) here.2 paths⟩
  · rw [hl] at h
    cases h
    exact same
  · rw [Faults.left, Folder.locate_refill, hl] at h
    cases h
    exact kept

theorem candidatesBelow_of_shape_eq (shape : top'.shape = top.shape) :
    candidatesBelow faults s root top' = candidatesBelow faults s root top :=
  Folder.eq_of_shape_eq (candidatesBelow faults s root)
    (fun f top => candidatesBelow_refill faults s root f top) shape

/-- In a tree of the same shape that is listed alike a run takes the same files. -/
theorem guardTreeOn_of_shape_eq (hw : top.isProper)
    (found : candidatesBelow faults s root top = .ok (files.map Prod.fst))
    (leads : ∀ f ∈ files, top.LeadsToFile f.1 f.2) (hn : (files.map Prod.snd).Nodup)
    (hu : faults'.unlistable = faults.unlistable) (he : faults'.entry = faults.entry)
    (shape : top'.shape = top.shape) : guardTreeOn faults' s root top' =
      (.ok (runReport faults' s root top' (faults'.left s files top') (files.map Prod.fst)),
        faults'.left s files top') := by
  have hw' : top'.isProper := by
    rw [Folder.eq_of_shape_eq Folder.isProper Folder.isProper_refill shape, hw]
  have found' : candidatesBelow faults' s root top' = .ok (files.map Prod.fst) := by
    rw [candidatesBelow_congr hu he, candidatesBelow_of_shape_eq shape, found]
  refine guardTreeOn_eq hw' found' (fun f hf => ?_) hn
  obtain ⟨hp, c, hc⟩ := leads f hf
  exact ⟨(locate_of_shape_eq shape).trans hp, Folder.exists_file_of_shape_eq shape hc⟩

/-- A run whose writes succeed and that returns a report guards the texts of the files it lists and
leaves every other content and the shape of the tree alone; a dry run leaves everything alone. The
files it lists are those that a chain of shown names leads to from the root through directories.
Whatever the other files hold and whatever the disk refuses of them, a run reports, and it does the
same to a file that holds the same and says the same of it. -/
theorem guardTree_changes_listed_texts (hw : top.isProper) (sound : ∀ p, faults.writing p = none)
    (h : guardTreeOn faults s root top = (.ok report, after)) :
    ∃ selection base inner, Selection.ofSettings s = .ok selection ∧
      top.locate root = .ok base ∧ top.at? base = some (.dir inner) ∧
      (∀ loc, selection.Lists faults top root loc ↔
        faults.unlistable root = false ∧ ∃ chain, loc = base ++ chain ∧
          selection.Takes faults root [] inner chain ∧ faults.reading (root.below chain) = none) ∧
      (s.dryRun = false → GuardsTexts s.dialect (selection.Lists faults top root) top after) ∧
      (s.dryRun = true → after = top) ∧
      ∀ faults' top', faults'.unlistable = faults.unlistable → faults'.entry = faults.entry →
        top'.shape = top.shape → ∃ report' after',
          guardTreeOn faults' s root top' = (.ok report', after') ∧
          ∀ p loc, top.locate p = .ok loc → top'.at? loc = top.at? loc →
            (∀ q l, top.locate q = .ok (loc ++ l) →
              faults'.reading q = faults.reading q ∧ faults'.writing q = faults.writing q) →
            after'.at? loc = after.at? loc ∧ report'.about p = report.about p := by
  obtain ⟨files, found, leads, hn, rfl, rfl⟩ := exists_of_guardTreeOn hw h
  obtain ⟨selection, base, inner, hs, hp, hb, paths⟩ := candidatesBelow_eq_ok.1 found
  have proper : inner.isProper := Folder.isProper_of_at? hw hb
  refine ⟨selection, base, inner, hs, hp, hb, fun loc => lists_iff proper hp hb, fun wet => ?_,
    fun dry => left_dry dry, fun faults' top' hu he shape =>
      ⟨_, _, guardTreeOn_of_shape_eq hw found leads hn hu he shape, fun p loc hl same alike =>
        left_congr (fun _ => locate_of_shape_eq shape) leads hl same alike _⟩⟩
  rw [Faults.left, written, if_neg (Bool.eq_false_iff.1 wet)]
  refine guardsTexts_refill sound hn fun loc => ?_
  rw [Selection.Lists, ← paths]
  constructor
  · rintro ⟨p, hmem, readable, located⟩
    obtain ⟨f, hf, rfl⟩ := List.mem_map.1 hmem
    rw [(leads f hf).1] at located
    cases located
    exact ⟨f.1, hf, readable⟩
  · rintro ⟨p, hf, readable⟩
    exact ⟨p, List.mem_map_of_mem hf, readable, (leads _ hf).1⟩

end

def sampleListing : Folder :=
  .file "main.swift" "print(1)\n".toUTF8
    (.file "notes.txt" "print(2)\n".toUTF8
      (.file "broken.swift" ⟨#[0xFF]⟩
        (.dir ".build" (.file "copy.swift" "print(3)\n".toUTF8 .nil) .nil)))

def sampleFolder : Folder := .dir "app" sampleListing .nil

theorem guardTree_changes_listed_texts_sampleFolder : sampleFolder.isProper ∧
    ∃ report after, guardTree {} "app" sampleFolder = (.ok report, after) ∧
      after.at? ["app", "main.swift"] =
        some (.file "#if DEBUG\nprint(1)\n#endif\n".toUTF8) ∧
      after.at? ["app", "broken.swift"] = some (.file ⟨#[0xFF]⟩) ∧
      after.at? ["app", ".build", "copy.swift"] = some (.file "print(3)\n".toUTF8) := by
  have proper : sampleFolder.isProper := by decide
  have hs : Selection.ofSettings {} = .ok ⟨["swift"], []⟩ := rfl
  have hp : sampleFolder.locate "app" = .ok ["app"] := rfl
  have found : candidatesBelow .nowhere {} "app" sampleFolder = .ok _ :=
    candidatesBelow_eq_ok.2 ⟨_, _, _, hs, hp, rfl, rfl⟩
  obtain ⟨files, same, leads, once⟩ := exists_files proper found
  rw [same] at found
  have run := guardTreeOn_eq proper found leads once
  obtain ⟨selection, base, inner, hs', hp', hb, lists, wrote, -⟩ :=
    guardTree_changes_listed_texts proper (fun _ => rfl) run
  rw [hs] at hs'
  rw [hp] at hp'
  cases hs'
  cases hp'
  cases hb
  have wrote := wrote rfl
  refine ⟨proper, _, _, run, ?_, ?_, ?_⟩
  · have takes : Selection.Takes ⟨["swift"], []⟩ .nowhere "app" [] sampleListing ["main.swift"] :=
      (Selection.Takes.cons_iff rfl).2 ⟨by decide, Or.inl ⟨_, rfl, rfl, by decide⟩⟩
    have new := wrote.guarded _ "print(1)\n".toList ((lists _).2 ⟨rfl, _, rfl, takes, rfl⟩)
      (by rw [String.ofList_toList]; rfl)
    have output : (guardText Dialect.swift "print(1)\n".toList).output =
        "#if DEBUG\nprint(1)\n#endif\n".toList := by decide +kernel
    rw [output, String.ofList_toList] at new
    exact new
  · exact wrote.notText _ _ (by decide +kernel) rfl
  · refine wrote.unlisted _ _ (fun h => ?_) rfl
    obtain ⟨-, chain, hc, takes, -⟩ := (lists _).1 h
    cases hc
    exact absurd (takes.shown [] ".build" ["copy.swift"] rfl) (by decide)

end CallGuard
