import CallGuard.Proofs.Neutral
set_option autoImplicit false

/-!
# Lines that move

When no marker has a line feed in it, a block adds one line before its first line and one after its
last. In a neutral dialect the statements of an output are those of the text, moved by the marker
lines that come before them.
-/
namespace CallGuard

/-- Each marker is written as one line. -/
structure Dialect.Unbroken (d : Dialect) : Prop where
  openMarker : '\n' ∉ d.openMarker
  closeMarker : '\n' ∉ d.closeMarker
  closeMarker_ne_nil : d.closeMarker ≠ []

/-- Where line `i` goes: each block adds a line before those from its first on and one before those
after its last. -/
def movedLine (bs : List Block) (i : Nat) : Nat :=
  i + bs.countP (·.start ≤ i) + bs.countP (·.last < i)

def Span.moved (bs : List Block) (st : Span) : Span :=
  ⟨movedLine bs st.start, movedLine bs st.last⟩

/-- The line is the same, or it lacked a break and has got one. -/
def Preserved (l m : Line) : Prop := m = l ∨ terminator l = [] ∧ ∃ k, m = l ++ lineBreak k

variable {d : Dialect} {ls : List Line} {bs : List Block} {n i s e : Nat}

theorem Preserved.trans {l m k : Line} (h1 : Preserved l m) (h2 : Preserved m k) : Preserved l k := by
  rcases h1 with rfl | ⟨ht, x, rfl⟩
  · exact h2
  · have ends : terminator (l ++ lineBreak x) ≠ [] :=
      fun hn => terminator_eq_nil_iff.1 hn (getLast_append_lineBreak l x)
    rcases h2 with rfl | ⟨hn, -⟩
    · exact Or.inr ⟨ht, x, rfl⟩
    · exact absurd hn ends

theorem preserved_breakAt (s e i : Nat) (ls : List Line) :
    Preserved (lineAt ls i) (lineAt (breakAt s e ls) i) := by
  by_cases hi : i = e
  · subst hi
    by_cases hlt : i < ls.length
    · rw [lineAt_breakAt_self hlt]
      by_cases ht : terminator (lineAt ls i) = []
      · rw [gap, if_pos ht]
        exact Or.inr ⟨ht, _, rfl⟩
      · rw [gap, if_neg ht, List.append_nil]
        exact Or.inl rfl
    · rw [breakAt, List.set_eq_of_length_le (by omega)]
      exact Or.inl rfl
  · exact Or.inl (lineAt_breakAt hi)

theorem Dialect.Neutral.unbroken (hd : d.Neutral) : d.Unbroken :=
  ⟨hd.openMarker.1, hd.closeMarker.1, hd.closeMarker_ne_nil⟩

theorem unbroken_of_valid (hv : d.fault? = none) (ho : '\n' ∉ d.openMarker)
    (hc : '\n' ∉ d.closeMarker) : d.Unbroken :=
  ⟨ho, hc, closeMarker_ne_nil hv⟩

/-! ## One block -/

theorem shiftLine_lt {p q s e i j : Nat} (hs : s ≤ e) (h : i < j) :
    shiftLine p q s e i < shiftLine p q s e j := by
  unfold shiftLine
  split_ifs <;> omega

theorem enclose_cut (hd : d.Unbroken) (hs : s ≤ e) : enclose d s e ls = ls.take s ++
    (openingText d (lineAt ls s) :: (between (breakAt s e ls) s (e + 1) ++
      closingText d (lineAt ls s) (lineAt ls e) :: ls.drop (e + 1))) := by
  rw [enclose_eq hs, splitLines_openingText hd.openMarker,
    splitLines_closingText hd.closeMarker hd.closeMarker_ne_nil]
  rfl

theorem Dialect.Unbroken.length_enclose (hd : d.Unbroken) (hs : s ≤ e) (he : e < ls.length) :
    (enclose d s e ls).length = ls.length + 2 :=
  CallGuard.length_enclose hd.openMarker hd.closeMarker hd.closeMarker_ne_nil hs he

theorem statements_enclose_neutral (hd : d.Neutral) (hl : Lined ls)
    (hst : ⟨s, e⟩ ∈ statements d ls) :
    statements d (enclose d s e ls) = (statements d ls).map (Span.shift 1 1 s e) := by
  rw [statements_enclose hd.unobtrusive hl hst, hd.splitLines_opening, hd.splitLines_closing]
  rfl

theorem lineAt_insert (as : List Line) {ms : List Line} (bs : List Line) (o c : Line) (hm : ms ≠ [])
    (i : Nat) :
    lineAt (as ++ (o :: (ms ++ c :: bs)))
      (shiftLine 1 1 as.length (as.length + (ms.length - 1)) i) = lineAt (as ++ (ms ++ bs)) i := by
  have pos := List.length_pos_iff.2 hm
  by_cases h1 : i < as.length
  · rw [shiftLine_above h1, lineAt_append_left h1, lineAt_append_left h1]
  · have cons (x : Line) (xs : List Line) (j : Nat) : lineAt (x :: xs) (j + 1) = lineAt xs j := rfl
    rw [lineAt_append_right (by omega : as.length ≤ i)]
    by_cases h2 : i - as.length < ms.length
    · rw [shiftLine_inside (by omega) (by omega), lineAt_append_right (by omega),
        show i + 1 - as.length = i - as.length + 1 by omega, cons, lineAt_append_left h2,
        lineAt_append_left h2]
    · rw [shiftLine_below (by omega) (by omega), lineAt_append_right (by omega),
        show i + 1 + 1 - as.length = i - as.length + 1 + 1 by omega, cons,
        lineAt_append_right (by omega), lineAt_append_right (by omega),
        show i - as.length + 1 - ms.length = i - as.length - ms.length + 1 by omega, cons]

theorem length_between_breakAt (he : e < ls.length) :
    (between (breakAt s e ls) s (e + 1)).length = e + 1 - s :=
  length_between _ _ (by rw [breakAt_length]; omega)

theorem lineAt_enclose (hd : d.Unbroken) (hs : s ≤ e) (he : e < ls.length) (i : Nat) :
    lineAt (enclose d s e ls) (shiftLine 1 1 s e i) = lineAt (breakAt s e ls) i := by
  have len := length_between_breakAt (s := s) he
  have as : (ls.take s).length = s := by
    rw [List.length_take]
    omega
  have at' := lineAt_insert (ls.take s) (ls.drop (e + 1)) (openingText d (lineAt ls s))
    (closingText d (lineAt ls s) (lineAt ls e)) (List.ne_nil_of_length_pos (by omega) :
      between (breakAt s e ls) s (e + 1) ≠ []) i
  rw [as, len, show s + (e + 1 - s - 1) = e by omega, ← enclose_cut hd hs, ← breakAt_eq hs] at at'
  exact at'

/-! ## All blocks -/

theorem movedLine_eq_self (h : ∀ b ∈ bs, i < b.start ∧ i ≤ b.last) : movedLine bs i = i := by
  have none : bs.countP (·.start ≤ i) = 0 :=
    List.countP_eq_zero.2 fun b hb => by simpa using (h b hb).1
  have none' : bs.countP (·.last < i) = 0 :=
    List.countP_eq_zero.2 fun b hb => by simpa using (h b hb).2
  unfold movedLine
  omega

theorem movedLine_cons {b : Block} (h : InOrder n i (b :: bs)) (j : Nat) :
    movedLine (b :: bs) j = shiftLine 1 1 b.start b.last (movedLine bs j) := by
  obtain ⟨-, h2, -, h4⟩ := h
  have later := h4.ge
  by_cases hj : j ≤ b.last
  · have same : movedLine bs j = j := movedLine_eq_self fun c hc => by
      have := later c hc
      omega
    rw [same]
    unfold movedLine at same ⊢
    by_cases hs : b.start ≤ j
    · rw [shiftLine_inside hs hj, List.countP_cons_of_pos (by simpa using hs),
        List.countP_cons_of_neg (by simpa using hj)]
      omega
    · rw [shiftLine_above (by omega), List.countP_cons_of_neg (by simpa using hs),
        List.countP_cons_of_neg (by simpa using hj)]
      omega
  · have ge : j ≤ movedLine bs j := by
      unfold movedLine
      omega
    rw [shiftLine_below (by omega) (by omega)]
    unfold movedLine
    rw [List.countP_cons_of_pos (by simp only [decide_eq_true_eq]; omega),
      List.countP_cons_of_pos (by simp only [decide_eq_true_eq]; omega)]
    omega

theorem movedLine_lt (h : InOrder n i bs) {j k : Nat} (hjk : j < k) :
    movedLine bs j < movedLine bs k := by
  induction bs generalizing i with
  | nil => exact hjk
  | cons b bs ih =>
    rw [movedLine_cons h, movedLine_cons h]
    exact shiftLine_lt h.2.1 (ih h.2.2.2)

theorem movedLine_inj (h : InOrder n i bs) {j k : Nat} (e : movedLine bs j = movedLine bs k) :
    j = k := by
  rcases Nat.lt_trichotomy j k with hlt | rfl | hlt
  · have := movedLine_lt h hlt
    omega
  · rfl
  · have := movedLine_lt h hlt
    omega

theorem moved_eq_self {st : Span} (hle : st.start ≤ st.last) (h : InOrder n (st.last + 1) bs) :
    st.moved bs = st := by
  have later := h.ge
  have fixed {j : Nat} (hj : j ≤ st.last) : movedLine bs j = j := movedLine_eq_self fun c hc => by
    have := later c hc
    omega
  rw [Span.moved, fixed hle, fixed (Nat.le_refl _)]

theorem moved_cons {b : Block} (h : InOrder n i (b :: bs)) (st : Span) :
    st.moved (b :: bs) = (st.moved bs).shift 1 1 b.start b.last := by
  rw [Span.moved, movedLine_cons h, movedLine_cons h]
  rfl

/-- A span enclosed before the blocks below it is still a statement. -/
theorem head_mem_statements {b : Block} (hb : ⟨b.start, b.last⟩ ∈ statements d ls)
    (h : InOrder n i (b :: bs)) :
    ⟨b.start, b.last⟩ ∈ (statements d ls).map (Span.moved bs) :=
  List.mem_map.2 ⟨_, hb, moved_eq_self h.2.1 h.2.2.2⟩

/-- The statements of the lines with the blocks enclosed are those of the lines, moved. -/
theorem statements_encloseAll (hd : d.Neutral) (hl : Lined ls)
    (hb : ∀ b ∈ bs, ⟨b.start, b.last⟩ ∈ statements d ls) (h : InOrder ls.length i bs) :
    statements d (encloseAll d ls bs) = (statements d ls).map (Span.moved bs) := by
  induction bs generalizing i with
  | nil =>
    have id : Span.moved [] = id := rfl
    rw [id, List.map_id]
    rfl
  | cons b bs ih =>
    have tail := ih (fun c hc => hb c (List.mem_cons_of_mem b hc)) h.2.2.2
    have here := head_mem_statements (hb b List.mem_cons_self) h
    rw [encloseAll, statements_enclose_neutral hd (lined_encloseAll hl h.2.2.2) (tail ▸ here), tail,
      List.map_map]
    exact List.map_congr_left fun st _ => (moved_cons h st).symm

theorem lineAt_encloseAll (hd : d.Unbroken) (h : InOrder ls.length i bs) (j : Nat) :
    Preserved (lineAt ls j) (lineAt (encloseAll d ls bs) (movedLine bs j)) := by
  induction bs generalizing i with
  | nil => exact Or.inl rfl
  | cons b bs ih =>
    have len := (encloseAll_take (d := d) h.2.2.2).2
    rw [encloseAll, movedLine_cons h,
      lineAt_enclose hd h.2.1 (Nat.lt_of_lt_of_le h.2.2.1 len)]
    exact (ih h.2.2.2).trans (preserved_breakAt _ _ _ _)

end CallGuard
