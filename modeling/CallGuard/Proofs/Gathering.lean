import CallGuard.Candidates
import CallGuard.Proofs.Resolution
import Mathlib.Data.List.Nodup
set_option autoImplicit false

/-!
# The files a run takes

The listing of a run's candidates is a walk over the tree; what it finds is described here without
the walk. A chain of names is taken when it leads through directories to a regular file, none of
its entries is skipped and its last name has a wanted extension.
-/
namespace CallGuard

namespace Selection

variable {s : Selection} {faults faults' : Faults} {root : Path} {above base chain ns : List Name}
  {n : Name} {e : Entry} {rest inner top : Folder}

def entryChains (s : Selection) (faults : Faults) (root : Path) (above : List Name) (n : Name) :
    Entry → List (List Name)
  | .file _ => if s.wants n then [above ++ [n]] else []
  | .link _ => []
  | .dir inner =>
    if faults.unlistable (root.below (above ++ [n])) then []
    else s.chains faults root (above ++ [n]) inner

theorem chains_cons (s : Selection) (faults : Faults) (root : Path) (above : List Name) (n : Name)
    (e : Entry) (rest : Folder) : s.chains faults root above (Folder.cons n e rest) =
      (if s.isSkipped faults root above n then [] else s.entryChains faults root above n e) ++
        s.chains faults root above rest := by
  cases e with
  | file c =>
    rw [Folder.cons, chains, entryChains]
    cases s.isSkipped faults root above n <;> cases s.wants n <;> rfl
  | link t =>
    rw [Folder.cons, chains, entryChains, ite_self]
    rfl
  | dir inner =>
    rw [Folder.cons, chains, entryChains]
    cases s.isSkipped faults root above n <;>
      cases faults.unlistable (root.below (above ++ [n])) <;> rfl

/-- What the walk looks for, `above` being the names that lead to the folder. -/
structure Takes (s : Selection) (faults : Faults) (root : Path) (above : List Name) (top : Folder)
    (chain : List Name) : Prop where
  file : ∃ c, top.at? chain = some (.file c)
  shown : ∀ before n after, chain = before ++ n :: after →
    s.isSkipped faults root (above ++ before) n = false
  listed : ∀ before n after, chain = before ++ n :: after → after ≠ [] →
    faults.unlistable (root.below (above ++ before ++ [n])) = false
  wanted : ∃ n, chain.getLast? = some n ∧ s.wants n

namespace Takes

theorem ne_nil (h : s.Takes faults root above top chain) : chain ≠ [] := by
  rintro rfl
  obtain ⟨c, hc⟩ := h.file
  cases hc

theorem of_rest (hn : n ∉ rest.names) (h : s.Takes faults root above rest chain) (e : Entry) :
    s.Takes faults root above (Folder.cons n e rest) chain := by
  refine ⟨?_, h.shown, h.listed, h.wanted⟩
  obtain ⟨c, hc⟩ := h.file
  cases chain with
  | nil => cases hc
  | cons m ms => exact ⟨c, Folder.at?_cons_of_at? hn hc e⟩

/-- What holds at each name of a chain, given the names above it, holds at the first and at each of
those below it. -/
theorem forall_cut_cons {P : List Name → Name → List Name → Prop} :
    (∀ before m after, n :: ns = before ++ m :: after → P (above ++ before) m after) ↔
      P above n ns ∧
        ∀ before m after, ns = before ++ m :: after → P (above ++ [n] ++ before) m after := by
  constructor
  · intro h
    have here := h [] n ns rfl
    rw [List.append_nil] at here
    refine ⟨here, fun before m after cut => ?_⟩
    have below := h (n :: before) m after (by rw [cut, List.cons_append])
    rwa [List.append_cons] at below
  · rintro ⟨here, below⟩ before m after cut
    cases before with
    | nil =>
      cases cut
      rwa [List.append_nil]
    | cons b before =>
      cases cut
      have := below before m after rfl
      rwa [← List.append_cons] at this

theorem shown_cons : (∀ before m after, n :: ns = before ++ m :: after →
      s.isSkipped faults root (above ++ before) m = false) ↔
    s.isSkipped faults root above n = false ∧ ∀ before m after, ns = before ++ m :: after →
      s.isSkipped faults root (above ++ [n] ++ before) m = false :=
  forall_cut_cons (P := fun chain m _ => s.isSkipped faults root chain m = false)

theorem listed_cons : (∀ before m after, n :: ns = before ++ m :: after → after ≠ [] →
      faults.unlistable (root.below (above ++ before ++ [m])) = false) ↔
    (ns ≠ [] → faults.unlistable (root.below (above ++ [n])) = false) ∧
      ∀ before m after, ns = before ++ m :: after → after ≠ [] →
        faults.unlistable (root.below (above ++ [n] ++ before ++ [m])) = false :=
  forall_cut_cons
    (P := fun chain m after => after ≠ [] → faults.unlistable (root.below (chain ++ [m])) = false)

theorem cons_iff (hf : top.find? n = some e) : s.Takes faults root above top (n :: ns) ↔
    s.isSkipped faults root above n = false ∧
      ((∃ c, e = .file c ∧ ns = [] ∧ s.wants n) ∨
        ∃ inner, e = .dir inner ∧ faults.unlistable (root.below (above ++ [n])) = false ∧
          s.Takes faults root (above ++ [n]) inner ns) := by
  constructor
  · rintro ⟨⟨c, hc⟩, shown, listed, m, hm, wanted⟩
    obtain ⟨here, shown⟩ := shown_cons.1 shown
    obtain ⟨listable, listed⟩ := listed_cons.1 listed
    refine ⟨here, ?_⟩
    rcases Folder.exists_of_at?_cons hc with ⟨rfl, hf'⟩ | ⟨inner, hf', hc'⟩
    · rw [hf] at hf'
      cases hf'
      cases hm
      exact Or.inl ⟨c, rfl, rfl, wanted⟩
    · rw [hf] at hf'
      cases hf'
      cases ns with
      | nil => cases hc'
      | cons n' ns =>
        have listable := listable (List.cons_ne_nil n' ns)
        exact Or.inr ⟨inner, rfl, listable, ⟨c, hc'⟩, shown, listed, m, hm, wanted⟩
  · rintro ⟨here, ⟨c, rfl, rfl, wanted⟩ | ⟨inner, rfl, listable, h⟩⟩
    · have ended {before after : List Name} {m : Name} : [] ≠ before ++ m :: after :=
        (List.append_ne_nil_of_right_ne_nil before (List.cons_ne_nil m after)).symm
      exact ⟨⟨c, Folder.at?_singleton hf⟩,
        shown_cons.2 ⟨here, fun _ _ _ cut => absurd cut ended⟩,
        listed_cons.2 ⟨absurd rfl, fun _ _ _ cut => absurd cut ended⟩, n, rfl, wanted⟩
    · obtain ⟨⟨c, hc⟩, shown, listed, m, hm, wanted⟩ := h
      refine ⟨⟨c, by rw [Folder.at?_cons_dir hf, hc]⟩, shown_cons.2 ⟨here, shown⟩,
        listed_cons.2 ⟨fun _ => listable, listed⟩, m, ?_, wanted⟩
      rw [List.getLast?_cons, hm]
      rfl

end Takes

theorem mem_entryChains (mem : ∀ inner, e = .dir inner → ∀ chain,
      chain ∈ s.chains faults root (above ++ [n]) inner ↔
        ∃ ns, chain = above ++ [n] ++ ns ∧ s.Takes faults root (above ++ [n]) inner ns) :
    chain ∈ s.entryChains faults root above n e ↔ ∃ ns, chain = above ++ n :: ns ∧
      ((∃ c, e = .file c ∧ ns = [] ∧ s.wants n) ∨
        ∃ inner, e = .dir inner ∧ faults.unlistable (root.below (above ++ [n])) = false ∧
          s.Takes faults root (above ++ [n]) inner ns) := by
  cases e with
  | link t => simp [entryChains]
  | file c =>
    rw [entryChains]
    split
    · rename_i wanted
      simp [wanted]
    · rename_i unwanted
      simp [unwanted]
  | dir inner =>
    rw [entryChains]
    split
    · rename_i closed
      simp [closed]
    · rename_i listable
      rw [mem inner rfl]
      simp [listable]

theorem mem_chains (hw : top.isProper) : chain ∈ s.chains faults root above top ↔
    ∃ ns, chain = above ++ ns ∧ s.Takes faults root above top ns := by
  induction top using Folder.consInduction generalizing above chain with
  | nil =>
    refine ⟨fun h => (List.not_mem_nil h).elim, ?_⟩
    rintro ⟨ns, -, h⟩
    obtain ⟨c, hc⟩ := h.file
    cases ns <;> cases hc
  | cons n e rest inside ih =>
    obtain ⟨-, hn, hrest, he⟩ := (Folder.isProper_cons n e rest).1 hw
    have here : (Folder.cons n e rest).find? n = some e := by rw [Folder.find?_cons, if_pos rfl]
    have entry : chain ∈ s.entryChains faults root above n e ↔ _ :=
      mem_entryChains fun inner h chain => by
        subst h
        exact inside inner rfl he
    rw [chains_cons, List.mem_append, ih hrest]
    constructor
    · rintro (h | ⟨ns, rfl, h⟩)
      · split at h
        · cases h
        · rename_i shown
          obtain ⟨ns, rfl, kind⟩ := entry.1 h
          exact ⟨n :: ns, rfl, (Takes.cons_iff here).2 ⟨Bool.eq_false_iff.2 shown, kind⟩⟩
      · exact ⟨ns, rfl, h.of_rest hn e⟩
    · rintro ⟨ns, rfl, h⟩
      cases ns with
      | nil => exact absurd rfl h.ne_nil
      | cons m ms =>
        by_cases hm : n = m
        · subst hm
          obtain ⟨shown, h⟩ := (Takes.cons_iff here).1 h
          refine Or.inl ?_
          rw [if_neg (Bool.eq_false_iff.1 shown)]
          exact entry.2 ⟨ms, rfl, h⟩
        · refine Or.inr ⟨m :: ms, rfl, ?_, h.shown, h.listed, h.wanted⟩
          obtain ⟨c, hc⟩ := h.file
          exact ⟨c, by rwa [Folder.at?_cons_of_ne hm] at hc⟩

theorem exists_of_mem_entryChains (he : e.isProper)
    (h : chain ∈ s.entryChains faults root above n e) : ∃ ns, chain = above ++ n :: ns := by
  obtain ⟨ns, rfl, -⟩ := (mem_entryChains fun inner h chain => by
    subst h
    exact mem_chains he).1 h
  exact ⟨ns, rfl⟩

theorem nodup_chains (hw : top.isProper) : (s.chains faults root above top).Nodup := by
  induction top using Folder.consInduction generalizing above with
  | nil => exact List.nodup_nil
  | cons n e rest inside ih =>
    obtain ⟨-, hn, hrest, he⟩ := (Folder.isProper_cons n e rest).1 hw
    rw [chains_cons]
    refine List.Nodup.append ?_ (ih hrest) ?_
    · split
      · exact List.nodup_nil
      · cases e with
        | link t => exact List.nodup_nil
        | dir inner =>
          rw [entryChains]
          split
          · exact List.nodup_nil
          · exact inside inner rfl he
        | file c =>
          rw [entryChains]
          split
          · exact List.nodup_singleton _
          · exact List.nodup_nil
    · -- a chain of the rest begins with a name of the rest
      intro chain h hr
      split at h
      · cases h
      · obtain ⟨ns, rfl⟩ := exists_of_mem_entryChains he h
        obtain ⟨ms, same, taken⟩ := (mem_chains hrest).1 hr
        rw [List.append_cancel_left_eq] at same
        subst same
        obtain ⟨c, hc⟩ := taken.file
        exact hn (Folder.mem_names_of_at? hc)

theorem chains_refill (s : Selection) (faults : Faults) (root : Path) (above : List Name)
    (f : List Name → ByteArray → ByteArray) (top : Folder) :
    s.chains faults root above (top.refill f) = s.chains faults root above top := by
  induction top using Folder.consInduction generalizing above f with
  | nil => rfl
  | cons n e rest inside ih =>
    have entry : s.entryChains faults root above n (e.refill fun loc => f (n :: loc)) =
        s.entryChains faults root above n e := by
      cases e with
      | file c => rfl
      | link t => rfl
      | dir inner =>
        rw [Entry.refill, entryChains, entryChains, inside inner rfl]
    rw [Folder.refill_cons, chains_cons, chains_cons, entry, ih]

/-- Reading and writing play no part in the listing. -/
theorem chains_congr (hu : faults'.unlistable = faults.unlistable)
    (he : faults'.entry = faults.entry) (s : Selection) (root : Path) (above : List Name)
    (top : Folder) : s.chains faults' root above top = s.chains faults root above top := by
  induction top generalizing above with
  | nil => rfl
  | file n c rest ih => rw [chains, chains, isSkipped, isSkipped, he, ih]
  | link n t rest ih => rw [chains, chains, ih]
  | dir n inner rest inside ih => rw [chains, chains, isSkipped, isSkipped, he, hu, inside, ih]

theorem mem_walk (hw : inner.isProper) : chain ∈ s.walk faults root inner ↔
    faults.unlistable root = false ∧ s.Takes faults root [] inner chain := by
  rw [walk]
  split
  · rename_i closed
    simp [closed]
  · rename_i listable
    rw [mem_chains hw]
    simp [listable]

theorem nodup_walk (hw : inner.isProper) : (s.walk faults root inner).Nodup := by
  rw [walk]
  split
  · exact List.nodup_nil
  · exact nodup_chains hw

theorem walk_refill (s : Selection) (faults : Faults) (root : Path)
    (f : List Name → ByteArray → ByteArray) (inner : Folder) :
    s.walk faults root (inner.refill f) = s.walk faults root inner := by
  rw [walk, walk, chains_refill]

/-! ## In order, as paths -/

def taken (s : Selection) (faults : Faults) (root : Path) (inner : Folder) : List (List Name) :=
  (s.walk faults root inner).mergeSort chainLe

theorem mem_taken (hw : inner.isProper) : chain ∈ s.taken faults root inner ↔
    faults.unlistable root = false ∧ s.Takes faults root [] inner chain := by
  rw [taken, List.mem_mergeSort, mem_walk hw]

theorem nodup_taken (hw : inner.isProper) : (s.taken faults root inner).Nodup :=
  (List.mergeSort_perm _ _).nodup_iff.2 (nodup_walk hw)

theorem candidates_of_directory (hp : top.locate root = .ok base)
    (hb : top.at? base = some (.dir inner)) :
    s.candidates faults top root = (s.taken faults root inner).map root.below := by
  rw [candidates, Folder.directory?_eq_some.2 ⟨base, hp, hb⟩]
  rfl

theorem candidates_refill (s : Selection) (faults : Faults)
    (f : List Name → ByteArray → ByteArray) (top : Folder) (root : Path) :
    s.candidates faults (top.refill f) root = s.candidates faults top root := by
  cases hd : top.directory? root with
  | none =>
    have refilled := Folder.directory?_refill f top root
    rw [hd, Option.isSome_none, Option.isSome_eq_false_iff, Option.isNone_iff_eq_none] at refilled
    rw [candidates, candidates, hd, refilled]
  | some inner =>
    obtain ⟨base, hp, hb⟩ := Folder.directory?_eq_some.1 hd
    have hp' : (top.refill f).locate root = .ok base := by rw [Folder.locate_refill, hp]
    have hb' : (top.refill f).at? base = some (.dir (inner.refill fun l => f (base ++ l))) := by
      rw [Folder.at?_refill, hb]
      rfl
    rw [candidates_of_directory hp hb, candidates_of_directory hp' hb', taken, taken,
      walk_refill]

theorem candidates_congr (hu : faults'.unlistable = faults.unlistable)
    (he : faults'.entry = faults.entry) (s : Selection) (top : Folder) (root : Path) :
    s.candidates faults' top root = s.candidates faults top root := by
  simp only [candidates, walk, hu, chains_congr hu he]

/-- The files with their locations, when `base` is the location of the root. -/
def files (s : Selection) (faults : Faults) (root : Path) (base : List Name) (inner : Folder) :
    List (Path × List Name) :=
  (s.taken faults root inner).map fun chain => (root.below chain, base ++ chain)

theorem candidates_eq_files (hp : top.locate root = .ok base)
    (hb : top.at? base = some (.dir inner)) :
    s.candidates faults top root = (s.files faults root base inner).map Prod.fst := by
  rw [candidates_of_directory hp hb, files, List.map_map]
  rfl

theorem files_leadToFile (hw : inner.isProper) (hp : top.locate root = .ok base)
    (hb : top.at? base = some (.dir inner)) :
    ∀ f ∈ s.files faults root base inner, top.LeadsToFile f.1 f.2 := by
  intro f hf
  obtain ⟨chain, h, rfl⟩ := List.mem_map.1 hf
  obtain ⟨c, hc⟩ := ((mem_taken hw).1 h).2.file
  have located := Folder.locate_below hw hp hb hc fun t h => by cases h
  exact ⟨located, c, by rw [Folder.at?_append hb, hc]⟩

theorem nodup_files (hw : inner.isProper) (base : List Name) :
    ((s.files faults root base inner).map Prod.snd).Nodup := by
  rw [files, List.map_map]
  exact (nodup_taken hw).map (List.append_right_injective base)

end Selection

end CallGuard
