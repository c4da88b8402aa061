import CallGuard.Proofs.Splitting
import Mathlib.Data.List.TakeWhile
set_option autoImplicit false

/-!
# Recognition of markers

Blanks around a line do not matter to the marker predicates or to the words of the line, so the
lines that an insertion writes are recognised whatever their indentation and line break.
-/
namespace CallGuard

variable {t u v : Text}

theorem trimStart_blank_append (hv : ∀ c ∈ v, isBlank c) : trimStart (v ++ t) = trimStart t :=
  List.dropWhile_append_of_pos hv

theorem trimStart_append_of_ne_nil (ht : trimStart t ≠ []) (u : Text) :
    trimStart (t ++ u) = trimStart t ++ u := by
  unfold trimStart at ht ⊢
  rw [List.dropWhile_append, if_neg (by simpa using ht)]

theorem trimStart_append_blank (hu : ∀ c ∈ u, isBlank c) :
    trimStart (t ++ u) = if trimStart t = [] then [] else trimStart t ++ u := by
  split
  · rename_i ht
    have hb : ∀ c ∈ t, isBlank c := List.dropWhile_eq_nil_iff.1 ht
    exact List.dropWhile_eq_nil_iff.2 fun c hc => (List.mem_append.1 hc).elim (hb c) (hu c)
  · rename_i ht
    exact trimStart_append_of_ne_nil ht u

theorem trimStart_eq_trim_append (t : Text) :
    ∃ y : Text, (∀ c ∈ y, isBlank c) ∧ trimStart t = trim t ++ y := by
  have hr := List.takeWhile_append_dropWhile (p := isBlank) (l := (trimStart t).reverse)
  refine ⟨((trimStart t).reverse.takeWhile isBlank).reverse, ?_, ?_⟩
  · exact fun c hc => List.all_eq_true.1 List.all_takeWhile c (List.mem_reverse.1 hc)
  · have := congrArg List.reverse hr
    rw [List.reverse_append, List.reverse_reverse] at this
    exact this.symm

theorem getLast_trim {c : Char} (h : (trim t).getLast? = some c) : isBlank c = false := by
  have := List.head?_dropWhile_not isBlank (trimStart t).reverse
  rw [trim, trimEnd, List.getLast?_reverse] at h
  rw [h] at this
  simpa using this

theorem isDirective_blank_append (m : Text) (hv : ∀ c ∈ v, isBlank c) :
    isDirective m (v ++ t) = isDirective m t := by
  simp only [isDirective, trimStart_blank_append hv]

theorem head?_all_isBlank (hv : ∀ c ∈ v, isBlank c) : v.head?.all isBlank = true := by
  cases v with
  | nil => rfl
  | cons c v => simpa using hv c (by simp)

theorem isDirective_iff {m : Text} : isDirective m t ↔
    ∃ r : Text, trimStart t = trim m ++ r ∧ r.head?.all isBlank := by
  simp only [isDirective, Bool.and_eq_true, List.isPrefixOf_iff_prefix]
  constructor
  · rintro ⟨⟨r, hr⟩, hb⟩
    refine ⟨r, hr.symm, ?_⟩
    rwa [← hr, List.drop_left] at hb
  · rintro ⟨r, hr, hb⟩
    refine ⟨⟨r, hr.symm⟩, ?_⟩
    rwa [hr, List.drop_left]

/-- The marker itself, followed by blanks, is a directive. -/
theorem isDirective_marker (m : Text) (hv : ∀ c ∈ v, isBlank c) : isDirective m (m ++ v) := by
  obtain ⟨y, hy, hm⟩ := trimStart_eq_trim_append m
  have hyv : ∀ c ∈ y ++ v, isBlank c := fun c hc => (List.mem_append.1 hc).elim (hy c) (hv c)
  rw [isDirective_iff, trimStart_append_blank hv]
  split
  · rename_i hn
    exact ⟨[], by simpa using (List.append_eq_nil_iff.1 (hm.symm.trans hn)).1.symm, rfl⟩
  · exact ⟨y ++ v, by rw [hm, List.append_assoc], head?_all_isBlank hyv⟩

theorem isDirective_append_blank {m : Text} (hv : ∀ c ∈ v, isBlank c) :
    isDirective m (t ++ v) = isDirective m t := by
  rw [Bool.eq_iff_iff, isDirective_iff, isDirective_iff, trimStart_append_blank hv]
  split
  · rename_i hn
    rw [hn]
  · constructor
    · rintro ⟨r, hr, hb⟩
      rcases List.append_eq_append_iff.1 hr with ⟨a, ha, hra⟩ | ⟨a, ha, hra⟩
      · -- were the marker longer than the line, it would end in a blank
        have hn : a = [] := by
          by_contra hne
          have hc := List.getLast?_eq_some_getLast hne
          have last : (trim m).getLast? = some (a.getLast hne) := by
            rw [ha, List.getLast?_append, hc]
            rfl
          have blank := hv _ (hra ▸ List.mem_append_left r (List.getLast_mem hne))
          simp [getLast_trim last] at blank
        subst hn
        exact ⟨[], by simpa using ha.symm, rfl⟩
      · refine ⟨a, ha, ?_⟩
        cases a with
        | nil => rfl
        | cons c a => simpa [hra] using hb
    · rintro ⟨r, hr, hb⟩
      refine ⟨r ++ v, by rw [hr, List.append_assoc], ?_⟩
      cases r with
      | nil => exact head?_all_isBlank hv
      | cons c r => exact hb

theorem stretches_ne_nil {α : Type} (p : α → Bool) (t : List α) : stretches p t ≠ [] := by
  induction t with
  | nil => simp [stretches]
  | cons c t ih =>
    unfold stretches
    split
    · simp
    · split <;> simp

theorem stretches_append_cons {α : Type} {p : α → Bool} {c : α} (hc : p c) (u v : List α) :
    stretches p (u ++ c :: v) = stretches p u ++ stretches p v := by
  induction u with
  | nil => exact if_pos hc
  | cons a u ih =>
    rw [List.cons_append, stretches, stretches, ih]
    split
    · rfl
    · cases hu : stretches p u with
      | nil => exact absurd hu (stretches_ne_nil p u)
      | cons w ws => rfl

theorem stretches_of_none {α : Type} {p : α → Bool} {t : List α} (h : ∀ c ∈ t, ¬p c) :
    stretches p t = [t] := by
  induction t with
  | nil => rfl
  | cons c t ih =>
    rw [stretches, if_neg (h c List.mem_cons_self),
      ih fun a ha => h a (List.mem_cons_of_mem c ha)]

theorem words_append_cons {c : Char} (hc : isBlank c) (u v : Text) :
    words (u ++ c :: v) = words u ++ words v := by
  rw [words, stretches_append_cons hc, List.filter_append]
  rfl

theorem words_of_blank (hv : ∀ c ∈ v, isBlank c) : words v = [] := by
  induction v with
  | nil => rfl
  | cons c v ih =>
    obtain ⟨first, rest⟩ := List.forall_mem_cons.1 hv
    rw [← List.nil_append (c :: v), words_append_cons first, ih rest]
    rfl

theorem words_blank_append (hv : ∀ c ∈ v, isBlank c) (t : Text) : words (v ++ t) = words t := by
  induction v with
  | nil => rfl
  | cons c v ih =>
    obtain ⟨first, rest⟩ := List.forall_mem_cons.1 hv
    rw [List.cons_append, ← List.nil_append (c :: (v ++ t)), words_append_cons first, ih rest]
    rfl

theorem words_append_blank (hv : ∀ c ∈ v, isBlank c) (t : Text) : words (t ++ v) = words t := by
  cases v with
  | nil => rw [List.append_nil]
  | cons c v =>
    obtain ⟨first, rest⟩ := List.forall_mem_cons.1 hv
    rw [words_append_cons first, words_of_blank rest, List.append_nil]

theorem isDeclaration_append_blank (d : Dialect) (hv : ∀ c ∈ v, isBlank c) (t : Text) :
    d.isDeclaration (t ++ v) = d.isDeclaration t := by
  rw [Dialect.isDeclaration, words_append_blank hv]
  rfl

def Dialect.isMarker (d : Dialect) (l : Line) : Bool := d.opensGuard l || d.closesGuard l

section
variable (d : Dialect) {l : Line}

theorem opensGuard_append_blank (hv : ∀ c ∈ v, isBlank c) : d.opensGuard (l ++ v) = d.opensGuard l :=
  isDirective_append_blank hv

theorem closesGuard_append_blank (hv : ∀ c ∈ v, isBlank c) :
    d.closesGuard (l ++ v) = d.closesGuard l :=
  isDirective_append_blank hv

theorem isMarker_append_blank (hv : ∀ c ∈ v, isBlank c) : d.isMarker (l ++ v) = d.isMarker l := by
  rw [Dialect.isMarker, opensGuard_append_blank d hv, closesGuard_append_blank d hv,
    Dialect.isMarker]

end

theorem mem_indent {l : Line} {c : Char} (h : c ∈ indent l) : isBlank c ∧ c ≠ '\r' ∧ c ≠ '\n' := by
  have := List.all_eq_true.1 List.all_takeWhile c h
  simpa [and_assoc] using this

end CallGuard
