import CallGuard.Proofs.Gathering
import Mathlib.Data.List.Lex
set_option autoImplicit false

/-!
# Paths in order

Paths are compared part by part and names by their bytes. The candidates of a run come in
this order, each of them once.
-/
namespace CallGuard

/-! ## Dictionary order -/

section
variable {α : Type} [DecidableEq α] {lt : α → α → Bool} {as bs cs : List α}

theorem dictionaryLe_iff (irrefl : ∀ a, ¬lt a a) :
    dictionaryLe lt as bs ↔ as = bs ∨ List.Lex (fun a b => lt a b) as bs := by
  induction as generalizing bs with
  | nil =>
    cases bs with
    | nil => simp [dictionaryLe]
    | cons b bs => exact iff_of_true rfl (Or.inr .nil)
  | cons a as ih =>
    cases bs with
    | nil => exact iff_of_false (by simp [dictionaryLe]) (by rintro (h | h) <;> cases h)
    | cons b bs =>
      rw [dictionaryLe]
      by_cases hab : a = b
      · subst hab
        rw [if_pos rfl, ih, List.cons.injEq, eq_self, true_and]
        refine or_congr_right ⟨.cons, fun h => ?_⟩
        cases h with
        | rel h => exact absurd h (irrefl a)
        | cons h => exact h
      · rw [if_neg hab]
        constructor
        · exact fun h => Or.inr (.rel h)
        · rintro (h | h)
          · exact absurd (List.cons.inj h).1 hab
          · cases h with
            | rel h => exact h
            | cons h => exact absurd rfl hab

structure Ranks (lt : α → α → Bool) : Prop where
  irrefl : ∀ a, ¬lt a a
  trans : ∀ {a b c}, lt a b → lt b c → lt a c
  total : ∀ a b, ¬lt a b → ¬lt b a → a = b

theorem dictionaryLe_trans (h : Ranks lt) (hab : dictionaryLe lt as bs)
    (hbc : dictionaryLe lt bs cs) : dictionaryLe lt as cs := by
  rw [dictionaryLe_iff h.irrefl] at hab hbc ⊢
  rcases hab with rfl | hab
  · exact hbc
  · rcases hbc with rfl | hbc
    · exact Or.inr hab
    · exact Or.inr (List.lex_trans h.trans hab hbc)

theorem dictionaryLe_total (h : Ranks lt) (as bs : List α) :
    dictionaryLe lt as bs ∨ dictionaryLe lt bs as := by
  rw [dictionaryLe_iff h.irrefl, dictionaryLe_iff h.irrefl]
  by_cases hab : List.Lex (fun a b => lt a b) as bs
  · exact Or.inl (Or.inr hab)
  · by_cases hba : List.Lex (fun a b => lt a b) bs as
    · exact Or.inr (Or.inr hba)
    · exact Or.inl (Or.inl (List.lex_trichotomous h.total hba hab))

end

namespace Name

theorem lt_iff {m n : Name} : m.lt n ↔ List.Lex (fun x y => decide (x < y)) m n := by
  have irrefl : ∀ x : UInt8, ¬decide (x < x) := by simp
  rw [lt, Bool.and_eq_true, bne_iff_ne, le, dictionaryLe_iff irrefl]
  constructor
  · rintro ⟨hne, h | h⟩
    · exact absurd h hne
    · exact h
  · intro h
    refine ⟨?_, Or.inr h⟩
    rintro rfl
    exact List.lex_irrefl irrefl _ h

theorem ranks_lt : Ranks Name.lt where
  irrefl n h := by simp [lt] at h
  trans h h' := by
    rw [lt_iff] at h h' ⊢
    refine List.lex_trans (fun hab hbc => ?_) h h'
    rw [decide_eq_true_iff] at hab hbc ⊢
    exact UInt8.lt_trans hab hbc
  total m n h h' := by
    rw [lt_iff] at h h'
    refine List.lex_trichotomous (fun x y hxy hyx => ?_) h' h
    rw [decide_eq_true_iff] at hxy hyx
    exact UInt8.le_antisymm (UInt8.not_lt.1 hyx) (UInt8.not_lt.1 hxy)

end Name

theorem chainLe_iff {a b : List Name} : chainLe a b ↔ a = b ∨ List.Lex (fun m n => m.lt n) a b :=
  dictionaryLe_iff Name.ranks_lt.irrefl

theorem pairwise_mergeSort_chainLe (l : List (List Name)) :
    (l.mergeSort chainLe).Pairwise fun a b => chainLe a b := by
  refine List.pairwise_mergeSort (fun a b c hab hbc => ?_) (fun a b => ?_) l
  · exact dictionaryLe_trans Name.ranks_lt hab hbc
  · exact Bool.or_eq_true_iff.2 (dictionaryLe_total Name.ranks_lt a b)

/-! ## Parts of a path -/

inductive Part where
  | root
  | here
  | up
  | name (n : Name)
deriving DecidableEq

namespace Part

def ofStep? : Step → Option Part
  | .stay => none
  | .up => some .up
  | .down n => some (.name n)

def rank : Part → Nat
  | root => 0
  | here => 1
  | up => 2
  | name _ => 3

def lt : Part → Part → Bool
  | name m, name n => m.lt n
  | a, b => a.rank < b.rank

theorem lt_irrefl (a : Part) : ¬a.lt a := by
  cases a with
  | name n => exact Name.ranks_lt.irrefl n
  | root | here | up => decide

end Part

namespace Path

variable {p q root : Path} {n : Name} {chain chain' : List Name}

def anchor (p : Path) : List Part :=
  if p.isAbsolute then [.root]
  else if (stretches (· == Bytes.slash) p).head? = some [Bytes.dot] then [.here]
  else []

/-- Repeated slashes, a slash at the end and dots after the start count for nothing. -/
def parts (p : Path) : List Part := p.anchor ++ p.steps.filterMap Part.ofStep?

def Before (p q : Path) : Prop := List.Lex (fun a b => a.lt b) p.parts q.parts

instance (p q : Path) : Decidable (p.Before q) :=
  inferInstanceAs (Decidable (List.Lex (fun a b => a.lt b) p.parts q.parts))

theorem before_irrefl (p : Path) : ¬p.Before p := List.lex_irrefl Part.lt_irrefl _

theorem head?_stretches_append (u v : Bytes) :
    (stretches (· == Bytes.slash) (u ++ Bytes.slash :: v)).head? =
      (stretches (· == Bytes.slash) u).head? := by
  rw [stretches_append_cons (p := fun b => b == Bytes.slash) rfl,
    List.head?_append_of_ne_nil _ (stretches_ne_nil _ u)]

theorem anchor_join (hp : p ≠ []) (n : Name) : (p.join n).anchor = p.anchor := by
  obtain ⟨u, before, after⟩ := exists_join_eq hp n
  rw [anchor, anchor, isAbsolute, isAbsolute, after, head?_stretches_append]
  rcases before with ⟨rfl, hu⟩ | before
  · rw [List.head?_append_of_ne_nil _ hu]
  · rw [before, head?_stretches_append, List.head?_append, List.head?_append]
    rfl

theorem parts_join (hp : p ≠ []) (hn : n.isProper) : (p.join n).parts = p.parts ++ [.name n] := by
  obtain ⟨ss, before, after⟩ := exists_steps_join hp hn
  have same : p.steps.filterMap Part.ofStep? = ss.filterMap Part.ofStep? := by
    rcases before with before | before
    · rw [before]
    · rw [before, List.filterMap_append]
      exact List.append_nil _
  rw [parts, parts, anchor_join hp, after, same, List.filterMap_append, List.append_assoc]
  rfl

theorem parts_below (hp : p ≠ []) (hc : ∀ n ∈ chain, n.isProper) :
    (p.below chain).parts = p.parts ++ chain.map .name := by
  induction chain generalizing p with
  | nil => exact (List.append_nil _).symm
  | cons n ns ih =>
    obtain ⟨hn, hns⟩ := List.forall_mem_cons.1 hc
    change ((p.join n).below ns).parts = _
    rw [ih (join_ne_nil hn) hns, parts_join hp hn, List.append_assoc]
    rfl

theorem below_inj (hp : p ≠ []) (hc : ∀ n ∈ chain, n.isProper) (hc' : ∀ n ∈ chain', n.isProper)
    (h : p.below chain = p.below chain') : chain = chain' := by
  have parts := congrArg parts h
  rw [parts_below hp hc, parts_below hp hc', List.append_cancel_left_eq] at parts
  exact List.map_injective_iff.2 (fun _ _ => Part.name.inj) parts

/-- Below one root paths come in the order of their chains. -/
theorem before_below (hp : p ≠ []) (hc : ∀ n ∈ chain, n.isProper) (hc' : ∀ n ∈ chain', n.isProper)
    (h : List.Lex (fun m n => m.lt n) chain chain') : (p.below chain).Before (p.below chain') := by
  rw [Before, parts_below hp hc, parts_below hp hc']
  refine List.Lex.append_left _ ?_ p.parts
  clear hc hc'
  induction h with
  | nil => exact .nil
  | rel h => exact .rel h
  | cons _ ih => exact .cons ih

/-- As texts they come the other way, since a dot comes before a slash. -/
example : Path.Before "./a/z.swift" "./a.b/c.swift" := by decide

end Path

/-! ## Candidates -/

theorem Folder.isProper_of_mem {top : Folder} {loc : List Name} {e : Entry} {n : Name}
    (hw : top.isProper) (h : top.at? loc = some e) (hn : n ∈ loc) : n.isProper := by
  induction loc generalizing top with
  | nil => cases hn
  | cons m ms ih =>
    rcases exists_of_at?_cons h with ⟨rfl, hf⟩ | ⟨inner, hf, h⟩
    · rw [List.mem_singleton.1 hn]
      exact (isProper_of_find? hw hf).1
    · obtain ⟨hm, hw⟩ := isProper_of_find? hw hf
      rcases List.mem_cons.1 hn with rfl | hn
      · exact hm
      · exact ih hw h hn

namespace Selection

variable {s : Selection} {faults : Faults} {root : Path} {top inner : Folder} {base : List Name}

theorem taken_inOrder (hw : inner.isProper) :
    (s.taken faults root inner).Pairwise (List.Lex fun m n => m.lt n) := by
  refine (pairwise_mergeSort_chainLe _).imp₂ (fun a b h hne => ?_) (nodup_taken hw)
  exact (chainLe_iff.1 h).resolve_left hne

theorem isProper_of_mem_taken {chain : List Name} (hw : inner.isProper)
    (h : chain ∈ s.taken faults root inner) : ∀ n ∈ chain, n.isProper := by
  obtain ⟨c, hc⟩ := ((mem_taken hw).1 h).2.file
  exact fun n hn => Folder.isProper_of_mem hw hc hn

/-- The candidates come in order, and none comes twice. -/
theorem candidates_inOrder (hw : inner.isProper) (hp : top.locate root = .ok base)
    (hb : top.at? base = some (.dir inner)) :
    (s.candidates faults top root).Pairwise Path.Before := by
  rw [candidates_of_directory hp hb, List.pairwise_map]
  exact (taken_inOrder hw).imp_of_mem fun {a b} ha hb h =>
    Path.before_below (Folder.ne_nil_of_locate hp) (isProper_of_mem_taken hw ha)
      (isProper_of_mem_taken hw hb) h

end Selection

end CallGuard
