import CallGuard.Proofs.Names
import CallGuard.Proofs.Ordering
set_option autoImplicit false

/-!
# What is listed

The candidates of a run are described by the entries on the way to each file, their names, what the
disk tells of them and the patterns. The order in which the directories list their entries tells in
none of this, so it does not matter to the list of the candidates either.
-/
namespace CallGuard

namespace Folder

/-- The same tree, with the entries of its directories listed in another order. -/
inductive Relisted : Folder → Folder → Prop
  | nil : Relisted nil nil
  | cons (n : Name) (e : Entry) {f g : Folder} (h : Relisted f g) :
    Relisted (Folder.cons n e f) (Folder.cons n e g)
  | dir (n : Name) {inner inner' : Folder} (rest : Folder) (h : Relisted inner inner') :
    Relisted (dir n inner rest) (dir n inner' rest)
  | swap (n m : Name) (e e' : Entry) (rest : Folder) :
    Relisted (Folder.cons n e (Folder.cons m e' rest)) (Folder.cons m e' (Folder.cons n e rest))
  | trans {f g h : Folder} (hfg : Relisted f g) (hgh : Relisted g h) : Relisted f h

inductive Alike : Option Entry → Option Entry → Prop
  | missing : Alike none none
  | file (c : ByteArray) : Alike (some (.file c)) (some (.file c))
  | link (t : Path) : Alike (some (.link t)) (some (.link t))
  | dir {inner inner' : Folder} (h : Relisted inner inner') (hw : inner.isProper) :
    Alike (some (.dir inner)) (some (.dir inner'))

variable {f g h top top' inner inner' : Folder} {n : Name} {e : Entry} {x y z : Option Entry}
  {loc here : List Name}

namespace Relisted

theorem refl (f : Folder) : Relisted f f := by
  induction f using consInduction with
  | nil => exact .nil
  | cons n e rest _ ih => exact .cons n e ih

theorem names (h : Relisted f g) : f.names.Perm g.names := by
  induction h with
  | nil => exact .refl _
  | cons n e _ ih =>
    rw [names_cons, names_cons]
    exact ih.cons n
  | dir n rest _ _ => exact .refl _
  | swap n m e e' rest =>
    simp only [names_cons]
    exact .swap m n _
  | trans _ _ ih ih' => exact ih.trans ih'

theorem isProper (h : Relisted f g) (hw : f.isProper) : g.isProper := by
  induction h with
  | nil => exact hw
  | cons n e h ih =>
    rw [isProper_cons] at hw ⊢
    rw [← h.names.mem_iff]
    exact ⟨hw.1, hw.2.1, ih hw.2.2.1, hw.2.2.2⟩
  | @dir n inner inner' rest _ ih =>
    have old := (isProper_cons n (.dir inner) rest).1 hw
    exact (isProper_cons n (.dir inner') rest).2 ⟨old.1, old.2.1, old.2.2.1, ih old.2.2.2⟩
  | swap n m e e' rest =>
    simp only [isProper_cons, names_cons, List.mem_cons, not_or] at hw ⊢
    obtain ⟨hn, ⟨hne, hnr⟩, ⟨hm, hmr, hrest, he'⟩, he⟩ := hw
    exact ⟨hm, ⟨Ne.symm hne, hmr⟩, ⟨hn, hnr, hrest, he⟩, he'⟩
  | trans _ _ ih ih' => exact ih' (ih hw)

end Relisted

namespace Alike

theorem refl (hw : ∀ inner, x = some (.dir inner) → inner.isProper) : Alike x x := by
  cases x with
  | none => exact .missing
  | some e =>
    cases e with
    | file c => exact .file c
    | link t => exact .link t
    | dir inner => exact .dir (.refl inner) (hw inner rfl)

theorem trans (hxy : Alike x y) (hyz : Alike y z) : Alike x z := by
  cases hxy with
  | missing | file c | link t => exact hyz
  | dir h hw =>
    cases hyz with
    | dir h' _ => exact .dir (h.trans h') hw

theorem file_iff (h : Alike x y) (c : ByteArray) : x = some (.file c) ↔ y = some (.file c) := by
  cases h with
  | missing | file c' | link t => exact .rfl
  | dir h hw => simp

end Alike

namespace Relisted

theorem find? (h : Relisted f g) (hw : f.isProper) (n : Name) : Alike (f.find? n) (g.find? n) := by
  have same {f : Folder} (hw : f.isProper) : Alike (f.find? n) (f.find? n) :=
    .refl fun inner hf => (isProper_of_find? hw hf).2
  -- one case for each way to relist; a swap looks up distinct names
  induction h with
  | nil => exact .missing
  | cons m e _ ih =>
    obtain ⟨-, -, hrest, he⟩ := (isProper_cons m e _).1 hw
    rw [find?_cons, find?_cons]
    split
    · exact .refl fun inner h => by
        cases h
        exact he
    · exact ih hrest
  | @dir m inner inner' rest h _ =>
    obtain ⟨-, -, hrest, hi⟩ := (isProper_cons m (.dir inner) rest).1 hw
    rw [Folder.find?, Folder.find?]
    split
    · exact .dir h hi
    · exact same hrest
  | swap m k e e' rest =>
    have other : m ≠ k := by
      have hm := ((isProper_cons _ _ _).1 hw).2.1
      rw [names_cons] at hm
      exact List.ne_of_not_mem_cons hm
    have moved : (Folder.cons k e' (Folder.cons m e rest)).find? n =
        (Folder.cons m e (Folder.cons k e' rest)).find? n := by
      simp only [find?_cons]
      split
      · rename_i hk
        rw [if_neg fun hm => other (hm.trans hk.symm)]
      · rfl
    rw [moved]
    exact same hw
  | trans hfg _ ih ih' => exact (ih hw).trans (ih' (hfg.isProper hw))

theorem at? (h : Relisted f g) (hw : f.isProper) (loc : List Name) :
    Alike (f.at? loc) (g.at? loc) := by
  induction loc generalizing f g with
  | nil => exact .dir h hw
  | cons n ns ih =>
    have found := h.find? hw n
    rw [Folder.at?, Folder.at?]
    generalize f.find? n = x, g.find? n = y at found ⊢
    cases found with
    | missing => exact .missing
    | file c =>
      dsimp only
      split
      · exact .file c
      · exact .missing
    | link t =>
      dsimp only
      split
      · exact .link t
      · exact .missing
    | dir h hw => exact ih h hw

theorem walk (h : Relisted f g) (hw : f.isProper)
    (onLink : List Name → List Step → Except Refusal (List Name)) (here : List Name)
    (ss : List Step) : g.walk onLink here ss = f.walk onLink here ss := by
  induction ss generalizing here with
  | nil => rfl
  | cons s ss ih =>
    have at_ := h.at? hw here
    rw [Folder.walk, Folder.walk]
    generalize f.at? here = x, g.at? here = y at at_ ⊢
    cases at_ with
    | missing | file c | link t => rfl
    | @dir inner inner' h hw =>
      cases s with
      | stay => exact ih here
      | up => exact ih here.dropLast
      | down n =>
        have found := h.find? hw n
        dsimp only
        generalize inner.find? n = x, inner'.find? n = y at found ⊢
        cases found with
        | missing | link t => rfl
        | file c => exact ih (here ++ [n])
        | dir h hw => exact ih (here ++ [n])

theorem follow (h : Relisted f g) (hw : f.isProper) (links : Nat) :
    g.follow links = f.follow links := by
  induction links with
  | zero =>
    funext here ss
    exact h.walk hw _ here ss
  | succ links ih =>
    funext here ss
    rw [Folder.follow, Folder.follow, h.walk hw, ih]

theorem locate (h : Relisted f g) (hw : f.isProper) (p : Path) : g.locate p = f.locate p := by
  rw [Folder.locate, Folder.locate, h.follow hw]

end Relisted

theorem exists_dir_of_at?_append {ns : List Name} (h : top.at? (loc ++ n :: ns) = some e) :
    ∃ inner, top.at? loc = some (.dir inner) := by
  induction loc generalizing top with
  | nil => exact ⟨top, rfl⟩
  | cons m ms ih =>
    rcases exists_of_at?_cons h with ⟨hnil, -⟩ | ⟨inner, hf, h⟩
    · simp at hnil
    · rw [at?_cons_dir hf]
      exact ih h

end Folder

namespace Selection

variable {s : Selection} {faults : Faults} {root : Path} {top top' inner inner' : Folder}
  {above chain : List Name} {p : Path}

/-- The chain of names leads through directories to a regular file. The disk lists the directories
and tells of the entries, no name starts with a dot, no pattern speaks of an entry on the way, and
the extension is wanted. -/
structure Finds (s : Selection) (faults : Faults) (root : Path) (inner : Folder)
    (chain : List Name) : Prop where
  directories : ∀ above, above <+: chain → above ≠ chain → ∃ f, inner.at? above = some (.dir f)
  listed : ∀ above, above <+: chain → above ≠ chain → faults.unlistable (root.below above) = false
  file : ∃ content, inner.at? chain = some (.file content)
  told : ∀ above, above <+: chain → above ≠ [] → faults.entry (root.below above) = none
  shown : ∀ n ∈ chain, n.head? ≠ some Bytes.dot
  kept : ∀ above, above <+: chain → above ≠ [] → ∀ accepts ∈ s.excludes,
    accepts (Path.ofChain above) = false ∧ accepts (root.below above) = false
  wanted : ∃ n, chain.getLast? = some n ∧ ∃ stem, ∃ ext ∈ s.extensions, stem ≠ [] ∧
    Bytes.dot ∉ utf8 ext ∧ n = stem ++ Bytes.dot :: utf8 ext

/-- A chain of names with one that starts with a dot and is no text leads from the root to the
path. -/
def Obscures (root p : Path) : Prop :=
  ∃ chain, p = root.below chain ∧ (∀ n ∈ chain, n.isProper) ∧
    ∃ n ∈ chain, n.head? = some Bytes.dot ∧ n.text? = none

theorem isSkipped_eq_false_iff {n : Name} : s.isSkipped faults root above n = false ↔
    faults.entry (root.below (above ++ [n])) = none ∧ n.isHidden = false ∧
      ∀ accepts ∈ s.excludes, accepts (Path.ofChain (above ++ [n])) = false ∧
        accepts (root.below (above ++ [n])) = false := by
  have passed : s.isExcluded root (above ++ [n]) = false ↔ ∀ accepts ∈ s.excludes,
      accepts (Path.ofChain (above ++ [n])) = false ∧
        accepts (root.below (above ++ [n])) = false := by
    simp [isExcluded]
  rw [isSkipped, ← passed]
  cases faults.entry (root.below (above ++ [n])) with
  | none => simp
  | some fault => cases fault <;> simp

/-- What the walk takes, said of the parts of the way. -/
theorem takes_iff : faults.unlistable root = false ∧ s.Takes faults root [] inner chain ↔
    (∀ above, above <+: chain → above ≠ chain → ∃ f, inner.at? above = some (.dir f)) ∧
    (∀ above, above <+: chain → above ≠ chain → faults.unlistable (root.below above) = false) ∧
    (∃ content, inner.at? chain = some (.file content)) ∧
    (∀ above n, above ++ [n] <+: chain → s.isSkipped faults root above n = false) ∧
    ∃ n, chain.getLast? = some n ∧ s.wants n := by
  constructor
  · rintro ⟨start, ⟨c, hc⟩, shown, listed, wanted⟩
    refine ⟨fun above hp hne => ?_, fun above hp hne => ?_, ⟨c, hc⟩, fun above n hp => ?_, wanted⟩
    · obtain ⟨after, rfl⟩ := hp
      cases after with
      | nil => exact absurd (List.append_nil above).symm hne
      | cons m ms => exact Folder.exists_dir_of_at?_append hc
    · obtain ⟨after, rfl⟩ := hp
      obtain rfl | ⟨before, n, rfl⟩ := List.eq_nil_or_concat' above
      · exact start
      · exact listed before n after (by simp) (by simpa using hne)
    · obtain ⟨after, cut⟩ := hp
      exact shown above n after (by rw [← cut]; simp)
  · rintro ⟨-, listed, file, shown, wanted⟩
    have named : chain ≠ [] := by
      rintro rfl
      obtain ⟨n, hn, -⟩ := wanted
      cases hn
    refine ⟨listed [] List.nil_prefix named.symm, file, fun before n after cut => ?_,
      fun before n after cut hne => ?_, wanted⟩
    · exact shown before n ⟨after, by simp [cut]⟩
    · exact listed (before ++ [n]) ⟨after, by simp [cut]⟩ (by simpa [cut] using hne)

theorem Finds.takes (h : s.Finds faults root inner chain) :
    faults.unlistable root = false ∧ s.Takes faults root [] inner chain := by
  obtain ⟨directories, listed, file, told, shown, kept, n, last, wanted⟩ := h
  refine takes_iff.2 ⟨directories, listed, file, fun above m hp => ?_, n, last, wants_iff.2 wanted⟩
  have named : above ++ [m] ≠ [] := by simp
  refine isSkipped_eq_false_iff.2 ⟨told _ hp named, ?_, kept _ hp named⟩
  refine Bool.eq_false_iff.2 fun hidden => ?_
  exact shown m (hp.subset (by simp)) (Name.isHidden_iff.1 hidden).1

/-- A name that starts with a dot is hidden when it is a text. -/
theorem finds_of_takes (clear : ∀ n ∈ chain, n.head? = some Bytes.dot → n.text?.isSome)
    (h : faults.unlistable root = false ∧ s.Takes faults root [] inner chain) :
    s.Finds faults root inner chain := by
  obtain ⟨directories, listed, file, shown, n, last, wanted⟩ := takes_iff.1 h
  have entry {above : List Name} (hp : above <+: chain) (hne : above ≠ []) :
      faults.entry (root.below above) = none ∧ ∀ accepts ∈ s.excludes,
        accepts (Path.ofChain above) = false ∧ accepts (root.below above) = false := by
    obtain ⟨before, m, rfl⟩ := (List.eq_nil_or_concat' above).resolve_left hne
    obtain ⟨told, -, kept⟩ := isSkipped_eq_false_iff.1 (shown before m hp)
    exact ⟨told, kept⟩
  refine ⟨directories, listed, file, fun above hp hne => (entry hp hne).1, fun m hm starts => ?_,
    fun above hp hne => (entry hp hne).2, n, last, wants_iff.1 wanted⟩
  obtain ⟨before, after, rfl⟩ := List.mem_iff_append.1 hm
  obtain ⟨-, visible, -⟩ := isSkipped_eq_false_iff.1 (shown before m ⟨after, by simp⟩)
  rw [Name.isHidden_iff.2 ⟨starts, clear m hm starts⟩] at visible
  cases visible

/-- The candidates are in order, so they are known by their members. -/
theorem taken_relisted (h : inner.Relisted inner') (hw : inner.isProper) :
    s.taken faults root inner' = s.taken faults root inner := by
  have hw' := h.isProper hw
  have same : ∀ chain, chain ∈ s.taken faults root inner' ↔ chain ∈ s.taken faults root inner := by
    intro chain
    rw [mem_taken hw, mem_taken hw']
    have file : (∃ c, inner.at? chain = some (.file c)) ↔ ∃ c, inner'.at? chain = some (.file c) :=
      exists_congr fun c => (h.at? hw chain).file_iff c
    exact and_congr_right fun _ => ⟨fun h => ⟨file.2 h.file, h.shown, h.listed, h.wanted⟩,
      fun h => ⟨file.1 h.file, h.shown, h.listed, h.wanted⟩⟩
  -- the same chains, each once
  have perm := (List.perm_ext_iff_of_nodup (nodup_taken hw') (nodup_taken hw)).2 same
  have asymm : ∀ {m n : Name}, m.lt n → ¬n.lt m := fun {m} {n} h h' =>
    Name.ranks_lt.irrefl m (Name.ranks_lt.trans h h')
  have antisymm : ∀ a b, a ∈ s.taken faults root inner' → b ∈ s.taken faults root inner →
      List.Lex (fun m n => m.lt n) a b → List.Lex (fun m n => m.lt n) b a → a = b :=
    fun a b _ _ hab hba => absurd hba (List.lex_asymm asymm hab)
  exact perm.eq_of_pairwise antisymm (taken_inOrder hw') (taken_inOrder hw)

theorem candidates_relisted (h : top.Relisted top') (hw : top.isProper) :
    s.candidates faults top' root = s.candidates faults top root := by
  rw [candidates, candidates, Folder.directory?, Folder.directory?, h.locate hw]
  cases top.locate root with
  | error why => rfl
  | ok loc =>
    have found := h.at? hw loc
    dsimp only
    generalize top.at? loc = x, top'.at? loc = y at found ⊢
    cases found with
    | missing | file c | link t => rfl
    | dir h hw => exact congrArg (List.map root.below) (taken_relisted h hw)

/-- The candidates are the paths of just the files to be found below the root, where no name that is
no text starts with a dot. They come in order, none of them twice, and they are the same in whatever
order the directories list their entries. -/
theorem candidates_exact (s : Selection) (faults : Faults) (hw : top.isProper)
    (hr : top.directory? root = some inner) :
    (∀ p, ¬Obscures root p →
      (p ∈ s.candidates faults top root ↔
        ∃ chain, p = root.below chain ∧ s.Finds faults root inner chain)) ∧
      (s.candidates faults top root).Nodup ∧
      (s.candidates faults top root).Pairwise Path.Before ∧
      ∀ top', top.Relisted top' →
        s.candidates faults top' root = s.candidates faults top root := by
  obtain ⟨base, hp, hb⟩ := Folder.directory?_eq_some.1 hr
  have hi : inner.isProper := Folder.isProper_of_at? hw hb
  have order : (s.candidates faults top root).Pairwise Path.Before := candidates_inOrder hi hp hb
  refine ⟨fun p clear => ?_, ?_, order, fun top' h => candidates_relisted h hw⟩
  · rw [candidates_of_directory hp hb, List.mem_map]
    constructor
    · rintro ⟨chain, taken, rfl⟩
      refine ⟨chain, rfl, finds_of_takes (fun n hn starts => ?_) ((mem_taken hi).1 taken)⟩
      refine Option.isSome_iff_ne_none.2 fun none => clear ⟨chain, rfl, ?_, n, hn, starts, none⟩
      exact isProper_of_mem_taken hi taken
    · rintro ⟨chain, rfl, finds⟩
      exact ⟨chain, (mem_taken hi).2 finds.takes, rfl⟩
  · refine order.imp ?_
    rintro p q h rfl
    exact Path.before_irrefl p h

theorem not_obscures_of_texts (hr : root ≠ []) (hc : ∀ n ∈ chain, n.isProper ∧ n.text?.isSome) :
    ¬Obscures root (root.below chain) := by
  rintro ⟨other, same, proper, n, hn, -, none⟩
  rw [← Path.below_inj hr (fun n hn => (hc n hn).1) proper same] at hn
  have text := (hc n hn).2
  rw [none] at text
  cases text

/-- One of the directories is excluded and another is not listed. -/
def mixedListing : Folder :=
  .dir "a.b" (.file "c.swift" .empty .nil)
    (.file "a.swift" .empty (.dir "Gen" (.file "x.swift" .empty .nil)
      (.dir "locked" (.file "y.swift" .empty .nil) .nil)))

def turnedListing : Folder :=
  .file "a.swift" .empty
    (.dir "a.b" (.file "c.swift" .empty .nil) (.dir "Gen" (.file "x.swift" .empty .nil)
      (.dir "locked" (.file "y.swift" .empty .nil) .nil)))

def lockedDirectory : Faults := { Faults.nowhere with unlistable := fun p => p == "w/locked" }

theorem candidates_exact_mixedListing :
    let s : Selection := ⟨["swift"], [Glob.matchesPath [.char 'G', .char 'e', .char 'n']]⟩
    ("w/a.b/c.swift" : Path) ∈ s.candidates lockedDirectory (.dir "w" mixedListing .nil) "w" ∧
      ("w/a.b/c.swift" : Path) ∈ s.candidates lockedDirectory (.dir "w" turnedListing .nil) "w" ∧
      ("w/Gen/x.swift" : Path) ∉ s.candidates lockedDirectory (.dir "w" mixedListing .nil) "w" ∧
      ("w/locked/y.swift" : Path) ∉
        s.candidates lockedDirectory (.dir "w" mixedListing .nil) "w" := by
  intro s
  have proper : Folder.isProper (.dir "w" mixedListing .nil) := by decide
  have listed : Folder.directory? (.dir "w" mixedListing .nil) "w" = some mixedListing := rfl
  obtain ⟨found, -, -, same⟩ := candidates_exact s lockedDirectory proper listed
  have below : mixedListing.isProper := by decide
  have takes : s.Takes lockedDirectory "w" [] mixedListing ["a.b", "c.swift"] :=
    (Takes.cons_iff rfl).2 ⟨by decide +kernel, Or.inr ⟨_, rfl, by decide,
      (Takes.cons_iff rfl).2 ⟨by decide +kernel, Or.inl ⟨_, rfl, rfl, by decide⟩⟩⟩⟩
  have mem : Path.below "w" ["a.b", "c.swift"] ∈
      s.candidates lockedDirectory (.dir "w" mixedListing .nil) "w" :=
    (found _ (not_obscures_of_texts (by decide) (by decide))).2
      ⟨_, rfl, finds_of_takes (by decide) ⟨by decide, takes⟩⟩
  have turned : s.candidates lockedDirectory (.dir "w" turnedListing .nil) "w" =
      s.candidates lockedDirectory (.dir "w" mixedListing .nil) "w" :=
    same _ (.dir "w" .nil (.swap "a.b" "a.swift" (.dir (.file "c.swift" .empty .nil)) (.file .empty)
      (.dir "Gen" (.file "x.swift" .empty .nil) (.dir "locked" (.file "y.swift" .empty .nil) .nil))))
  have passed (chain : List Name) (hc : ∀ n ∈ chain, n.isProper ∧ n.text?.isSome)
      (unfit : ¬s.Finds lockedDirectory "w" mixedListing chain) :
      Path.below "w" chain ∉ s.candidates lockedDirectory (.dir "w" mixedListing .nil) "w" := by
    intro h
    obtain ⟨other, cut, finds⟩ := (found _ (not_obscures_of_texts (by decide) hc)).1 h
    obtain ⟨c, file⟩ := finds.file
    rw [← Path.below_inj (by decide) (fun n hn => (hc n hn).1)
      (fun n hn => Folder.isProper_of_mem below file hn) cut] at finds
    exact unfit finds
  refine ⟨mem, turned ▸ mem, ?_, ?_⟩
  · refine passed ["Gen", "x.swift"] (by decide) fun finds => ?_
    exact absurd (finds.kept ["Gen"] ⟨["x.swift"], rfl⟩ (by simp) _ List.mem_cons_self).1
      (by decide +kernel)
  · refine passed ["locked", "y.swift"] (by decide) fun finds => ?_
    exact absurd (finds.listed ["locked"] ⟨["y.swift"], rfl⟩ (by simp)) (by decide)

/-- What the tree allows to be found is not found in a directory that the disk does not list. -/
theorem candidates_pass_over_lockedDirectory :
    Folder.isProper (.dir "w" mixedListing .nil) ∧
      Folder.directory? (.dir "w" mixedListing .nil) "w" = some mixedListing ∧
      lockedDirectory.unlistable "w" = false ∧
      ¬∀ p, p ∈ candidates ⟨["swift"], []⟩ lockedDirectory (.dir "w" mixedListing .nil) "w" ↔
        ∃ chain, p = Path.below "w" chain ∧ Finds ⟨["swift"], []⟩ .nowhere "w" mixedListing chain := by
  have below : mixedListing.isProper := by decide
  have located : Folder.locate (.dir "w" mixedListing .nil) "w" = .ok ["w"] := rfl
  refine ⟨by decide, rfl, by decide, fun h => ?_⟩
  have takes : Takes ⟨["swift"], []⟩ .nowhere "w" [] mixedListing ["locked", "y.swift"] :=
    (Takes.cons_iff rfl).2 ⟨by decide, Or.inr ⟨_, rfl, rfl,
      (Takes.cons_iff rfl).2 ⟨by decide, Or.inl ⟨_, rfl, rfl, by decide⟩⟩⟩⟩
  have mem := (h _).2 ⟨_, rfl, finds_of_takes (by decide) ⟨rfl, takes⟩⟩
  rw [candidates_of_directory located rfl] at mem
  obtain ⟨chain, taken, same⟩ := List.mem_map.1 mem
  obtain rfl := Path.below_inj (by decide) (isProper_of_mem_taken below taken) (by decide) same
  exact absurd (((mem_taken below).1 taken).2.listed [] "locked" ["y.swift"] rfl (by simp)) (by decide)

end Selection

end CallGuard
