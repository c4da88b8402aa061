import CallGuard.Proofs.Carry
import CallGuard.Proofs.Search
set_option autoImplicit false

/-!
# The lines of a piece

What is written around a statement is a marker among blanks: blank lines, the line that holds the
trimmed marker, and blank lines again. In a plain dialect only the trimmed marker counts.
-/
namespace CallGuard

def Blank (t : Text) : Prop := ∀ c ∈ t, isBlank c

def breaksBefore (m : Text) : Nat := (m.takeWhile isBlank).count '\n'

def breaksAfter (m : Text) : Nat := (m.reverse.takeWhile isBlank).count '\n'

variable {t u v m o : Text}

theorem Blank.append (hu : Blank u) (hv : Blank v) : Blank (u ++ v) :=
  fun c hc => (List.mem_append.1 hc).elim (hu c) (hv c)

theorem blank_takeWhile (t : Text) : Blank (t.takeWhile isBlank) :=
  List.all_eq_true.1 List.all_takeWhile

theorem marker_parts (h : trim m ≠ []) : m = m.takeWhile isBlank ++
    (trim m ++ (m.reverse.takeWhile isBlank).reverse) := by
  have front : m.takeWhile isBlank ++ trimStart m = m := List.takeWhile_append_dropWhile
  have back := List.takeWhile_append_dropWhile (p := isBlank) (l := (trimStart m).reverse)
  have whole : trimStart m = trim m ++ ((trimStart m).reverse.takeWhile isBlank).reverse := by
    have := congrArg List.reverse back
    rw [List.reverse_append, List.reverse_reverse] at this
    exact this.symm
  have rev : m.reverse.takeWhile isBlank = (trimStart m).reverse.takeWhile isBlank := by
    have hne : ((trimStart m).reverse.takeWhile isBlank).length ≠ (trimStart m).reverse.length := by
      intro e
      have := congrArg List.length whole
      rw [List.length_append, List.length_reverse, e, List.length_reverse] at this
      exact h (List.length_eq_zero_iff.1 (by omega))
    conv_lhs => rw [← front, List.reverse_append, List.takeWhile_append, if_neg hne]
  rw [rev, ← whole, front]

theorem trimStart_trim_append (hm : trim m ≠ []) (v : Text) :
    trimStart (trim m ++ v) = trim m ++ v := by
  obtain ⟨c, cs, hc⟩ := List.exists_cons_of_ne_nil hm
  obtain ⟨y, -, hy⟩ := trimStart_eq_trim_append m
  have head := List.head?_dropWhile_not isBlank m
  rw [show List.dropWhile isBlank m = trimStart m from rfl, hy, hc] at head
  have first : isBlank c = false := head
  rw [hc, List.cons_append, trimStart, List.dropWhile_cons_of_neg (by simp [first])]

theorem isDirective_around (hm : trim m ≠ []) (hu : Blank u) (hv : Blank v) :
    isDirective m (u ++ (trim m ++ v)) := by
  rw [isDirective_blank_append m hu, isDirective_iff]
  exact ⟨v, trimStart_trim_append hm v, head?_all_isBlank hv⟩

theorem trimStart_of_blank (hv : Blank v) : trimStart v = [] := List.dropWhile_eq_nil_iff.2 hv

theorem isDirective_of_blank (hm : trim m ≠ []) (hv : Blank v) : isDirective m v = false := by
  cases h : isDirective m v with
  | false => rfl
  | true =>
    obtain ⟨r, hr, -⟩ := isDirective_iff.1 h
    rw [trimStart_of_blank hv] at hr
    exact absurd (List.append_eq_nil_iff.1 hr.symm).1 hm

theorem isDeclaration_of_blank (d : Dialect) (hv : Blank v) : d.isDeclaration v = false := by
  have := isDeclaration_append_blank d hv []
  rw [List.nil_append] at this
  rw [this]
  rfl

/-! ## Splitting -/

theorem splitLines_append_of_notMem {l : Line} {ls : List Line} (hn : '\n' ∉ o)
    (hv : splitLines v = l :: ls) : splitLines (o ++ v) = (o ++ l) :: ls := by
  induction o with
  | nil => exact hv
  | cons c o ih =>
    have hc : c ≠ '\n' := fun e => hn (by simp [e])
    have tail := ih fun hm => hn (List.mem_cons_of_mem c hm)
    rw [List.cons_append, splitLines, if_neg hc, tail]
    rfl

theorem length_splitLines (h : t.getLast? = some '\n') : (splitLines t).length = t.count '\n' := by
  induction t with
  | nil => cases h
  | cons c t ih =>
    cases t with
    | nil =>
      obtain rfl : c = '\n' := by simpa using h
      rfl
    | cons b t =>
      have tail := ih (by simpa using h)
      by_cases hc : c = '\n'
      · rw [splitLines, if_pos hc, List.length_cons, tail, hc, List.count_cons_self]
      · rw [splitLines, if_neg hc, List.count_cons_of_ne hc, ← tail]
        cases hs : splitLines (b :: t) with
        | nil =>
          have := joinLines_splitLines (b :: t)
          rw [hs] at this
          cases this
        | cons l ls => rfl

theorem splitLines_blank_append {w : Line} {bs : List Line} (hu : Blank u)
    (ht : splitLines t = w :: bs) : ∃ (as : List Line) (u' : Text),
      splitLines (u ++ t) = as ++ (u' ++ w) :: bs ∧ as.length = u.count '\n' ∧
        (∀ l ∈ as, Blank l) ∧ Blank u' := by
  induction u with
  | nil => exact ⟨[], [], ht, rfl, by simp, by simp [Blank]⟩
  | cons c u ih =>
    obtain ⟨as, u', hs, hlen, has, hu'⟩ := ih fun a ha => hu a (List.mem_cons_of_mem c ha)
    have hc := hu c List.mem_cons_self
    have consBlank {l : Text} (hl : Blank l) : Blank (c :: l) := List.forall_mem_cons.2 ⟨hc, hl⟩
    by_cases he : c = '\n'
    · refine ⟨['\n'] :: as, u', ?_, ?_, List.forall_mem_cons.2 ⟨?_, has⟩, hu'⟩
      · rw [List.cons_append, splitLines, if_pos he, hs]
        rfl
      · rw [List.length_cons, hlen, he, List.count_cons_self]
      · rw [← he]
        exact consBlank (by simp [Blank])
    · rw [List.cons_append, splitLines, if_neg he, hs, List.count_cons_of_ne he]
      cases as with
      | nil => exact ⟨[], c :: u', rfl, hlen, by simp, consBlank hu'⟩
      | cons a as =>
        obtain ⟨ha, has⟩ := List.forall_mem_cons.1 has
        exact ⟨(c :: a) :: as, u', rfl, hlen, List.forall_mem_cons.2 ⟨consBlank ha, has⟩, hu'⟩

/-- Blank lines, a line that holds `o` among blanks, and blank lines. -/
def Piece (o : Text) (before after : Nat) (ls : List Line) : Prop :=
  ∃ (as : List Line) (u v : Text) (bs : List Line), ls = as ++ (u ++ (o ++ v)) :: bs ∧
    (∀ l ∈ as, Blank l) ∧ Blank u ∧ Blank v ∧ (∀ l ∈ bs, Blank l) ∧
      as.length = before ∧ bs.length = after

theorem blank_of_mem_splitLines (hv : Blank v) {l : Line} (hl : l ∈ splitLines v) : Blank l := by
  intro c hc
  apply hv c
  rw [← joinLines_splitLines v]
  exact List.mem_flatten.2 ⟨l, hl, hc⟩

theorem piece_splitLines (ho : o ≠ []) (hn : '\n' ∉ o) (hu : Blank u) (hv : Blank v) :
    ∃ after, Piece o (u.count '\n') after (splitLines (u ++ (o ++ v))) ∧
      (v.getLast? = some '\n' → after + 1 = v.count '\n') := by
  cases hs : splitLines v with
  | nil =>
    have none : v = [] := by rw [← joinLines_splitLines v, hs]; rfl
    subst none
    have core : splitLines (o ++ []) = [o ++ []] := by
      rw [List.append_nil]
      exact splitLines_unended ho hn
    obtain ⟨as, u', hsplit, hlen, has, hu'⟩ := splitLines_blank_append hu core
    exact ⟨0, ⟨as, u', [], [], hsplit, has, hu', by simp [Blank], by simp, hlen, rfl⟩, by simp⟩
  | cons l ls =>
    obtain ⟨as, u', hsplit, hlen, has, hu'⟩ :=
      splitLines_blank_append hu (splitLines_append_of_notMem hn hs)
    have blanks : ∀ k ∈ l :: ls, Blank k := fun k hk => blank_of_mem_splitLines hv (hs ▸ hk)
    obtain ⟨hl, hls⟩ := List.forall_mem_cons.1 blanks
    refine ⟨ls.length, ⟨as, u', l, ls, hsplit, has, hu', hl, hls, hlen, rfl⟩, fun h => ?_⟩
    rw [← length_splitLines h, hs, List.length_cons]

end CallGuard
