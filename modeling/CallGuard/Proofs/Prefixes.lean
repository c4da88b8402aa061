import CallGuard.Proofs.Idempotence
set_option autoImplicit false

/-!
# The lines above a line of an output

With a span enclosed, the lines above a line are those of the text, with the open marker among them
when the line lies in the span and the whole guard when it lies below. One block after the other
this tells of each line of an output what stands above it.
-/
namespace CallGuard

variable {d : Dialect} {ls : List Line} {bs : List Block} {i j k n s e : Nat}

theorem between_take (ms : List Line) (h : k ≤ j) : (between ms i j).take (k - i) = between ms i k := by
  unfold between
  rw [List.take_drop, List.take_take]
  by_cases hik : i ≤ k
  · rw [show min (i + (k - i)) j = k by omega]
  · rw [List.drop_eq_nil_of_le (by simp only [List.length_take]; omega),
      List.drop_eq_nil_of_le (by simp only [List.length_take]; omega)]

theorem take_drop_between (ms : List Line) (i j : Nat) : (ms.drop i).take (j - i) = between ms i j := by
  unfold between
  rw [List.drop_take]

theorem linesAbove_around (hs : s ≤ e) (h : e < i) (hi : i ≤ ls.length) : linesAbove ls i =
    (between ls (e + 1) i).reverse ++ ((between ls s (e + 1)).reverse ++ (ls.take s).reverse) := by
  rw [linesAbove_eq hi, take_eq_append_between ls (by omega : e + 1 ≤ i),
    take_eq_append_between ls (by omega : s ≤ e + 1)]
  simp

theorem between_eq_of_take_eq {ms : List Line} (h : ls.take n = ms.take n) (hj : j ≤ n) :
    between ls i j = between ms i j := by
  rw [between, between, ← Nat.min_eq_left hj, ← List.take_take, ← List.take_take, h]

theorem map_look_between_breakAt (s e i j : Nat) (ls : List Line) :
    (between (breakAt s e ls) i j).map d.look = (between ls i j).map d.look := by
  unfold between
  rw [List.map_drop, List.map_take, map_look_breakAt, List.map_drop, List.map_take]

section
variable (hd : d.Unbroken) (hs : s ≤ e) (he : e < ls.length)
include hd hs he

theorem take_enclose_inside (h1 : s ≤ i) (h2 : i ≤ e + 1) : (enclose d s e ls).take (i + 1) =
    ls.take s ++ openingText d (lineAt ls s) :: between (breakAt s e ls) s i := by
  have above : (ls.take s).length = s := List.length_take_of_le (by omega)
  have len := length_between_breakAt (s := s) he
  have pos : i + 1 = (ls.take s).length + (i - s + 1) := by omega
  rw [enclose_cut hd hs, pos, List.take_length_add_append, List.take_succ_cons,
    List.take_append_of_le_length (by omega), between_take _ h2]

theorem take_enclose_below (h : e < i) : (enclose d s e ls).take (i + 2) =
    ls.take s ++ openingText d (lineAt ls s) :: (between (breakAt s e ls) s (e + 1) ++
      closingText d (lineAt ls s) (lineAt ls e) :: between ls (e + 1) i) := by
  have above : (ls.take s).length = s := List.length_take_of_le (by omega)
  have len := length_between_breakAt (s := s) he
  have pos : i + 2 = (ls.take s).length +
      ((between (breakAt s e ls) s (e + 1)).length + (i - (e + 1) + 1) + 1) := by omega
  rw [enclose_cut hd hs, pos, List.take_length_add_append, List.take_succ_cons,
    List.take_length_add_append, List.take_succ_cons, take_drop_between]

/-- Seen upwards from a line below, the nearest line first. -/
theorem linesAbove_enclose_below (h : e < i) (hi : i ≤ ls.length) :
    linesAbove (enclose d s e ls) (i + 2) = (between ls (e + 1) i).reverse ++
      (closingText d (lineAt ls s) (lineAt ls e) :: ((between (breakAt s e ls) s (e + 1)).reverse ++
        openingText d (lineAt ls s) :: (ls.take s).reverse)) := by
  have len := hd.length_enclose hs he
  rw [linesAbove_eq (by omega), take_enclose_below hd hs he h]
  simp

theorem drop_enclose_start : (enclose d s e ls).drop s = openingText d (lineAt ls s) ::
    (between (breakAt s e ls) s (e + 1) ++
      closingText d (lineAt ls s) (lineAt ls e) :: ls.drop (e + 1)) := by
  rw [enclose_cut hd hs, List.drop_left' (List.length_take_of_le (by omega))]

theorem lineAt_enclose_opener : lineAt (enclose d s e ls) s = openingText d (lineAt ls s) := by
  have first := lineAt_drop (enclose d s e ls) s 0
  rw [drop_enclose_start hd hs he] at first
  exact first.symm

theorem lineAt_enclose_closer :
    lineAt (enclose d s e ls) (e + 2) = closingText d (lineAt ls s) (lineAt ls e) := by
  have len := length_between_breakAt (s := s) he
  have cons (x : Line) (xs : List Line) (j : Nat) : lineAt (x :: xs) (j + 1) = lineAt xs j := rfl
  have last := lineAt_drop (enclose d s e ls) s (e + 1 - s + 1)
  rw [drop_enclose_start hd hs he, cons, lineAt_append_right (by omega), len, Nat.sub_self,
    show s + (e + 1 - s + 1) = e + 2 by omega] at last
  exact last.symm

theorem between_enclose_markers :
    between (enclose d s e ls) (s + 1) (e + 2) = between (breakAt s e ls) s (e + 1) := by
  have len := length_between_breakAt (s := s) he
  rw [← take_drop_between, ← List.drop_drop, drop_enclose_start hd hs he, List.drop_succ_cons,
    List.drop_zero, show e + 2 - (s + 1) = e + 1 - s by omega, List.take_left' len]

/-- Below the close marker nothing but the numbers has changed. -/
theorem drop_enclose (h : e < i) : (enclose d s e ls).drop (i + 2) = ls.drop i := by
  have above : (ls.take s).length = s := List.length_take_of_le (by omega)
  have len := length_between_breakAt (s := s) he
  have pos : i + 2 = (ls.take s).length +
      ((between (breakAt s e ls) s (e + 1)).length + (i - (e + 1) + 1) + 1) := by omega
  rw [enclose_cut hd hs, pos, List.drop_length_add_append, List.drop_succ_cons,
    List.drop_length_add_append, List.drop_succ_cons, List.drop_drop,
    show e + 1 + (i - (e + 1)) = i by omega]

theorem between_enclose (hi : e < i) (j : Nat) :
    between (enclose d s e ls) (i + 2) (j + 2) = between ls i j := by
  rw [← take_drop_between, drop_enclose hd hs he hi, Nat.add_sub_add_right, take_drop_between]

theorem lineAt_enclose_below (h : e < i) :
    lineAt (enclose d s e ls) (i + 2) = lineAt ls i := by
  have := congrArg (lineAt · 0) (drop_enclose hd hs he h)
  simpa [lineAt] using this

end

/-- The blocks below a block leave its lines where they are. -/
theorem last_lt_encloseAll {b : Block} (h : InOrder ls.length i (b :: bs)) :
    b.last < (encloseAll d ls bs).length :=
  Nat.lt_of_lt_of_le h.2.2.1 (encloseAll_take h.2.2.2).2

/-! ## Numbers of lines -/

theorem movedLine_of_le {b : Block} (h : InOrder n i (b :: bs)) (hj : j ≤ b.last) :
    movedLine bs j = j := by
  apply movedLine_eq_self
  intro c hc
  have := h.2.2.2.ge c hc
  omega

theorem le_movedLine (bs : List Block) (j : Nat) : j ≤ movedLine bs j := by
  unfold movedLine
  omega

theorem movedLine_le (h : InOrder n i bs) (hjk : j ≤ k) : movedLine bs j ≤ movedLine bs k := by
  rcases Nat.eq_or_lt_of_le hjk with rfl | hlt
  · exact Nat.le_refl _
  · exact (movedLine_lt h hlt).le

theorem movedLine_cons_inside {b : Block} (h : InOrder n i (b :: bs)) (h1 : b.start ≤ j)
    (h2 : j ≤ b.last) : movedLine (b :: bs) j = j + 1 := by
  rw [movedLine_cons h, movedLine_of_le h h2, shiftLine_inside h1 h2]

theorem movedLine_cons_below {b : Block} (h : InOrder n i (b :: bs)) (hj : b.last < j) :
    movedLine (b :: bs) j = movedLine bs j + 2 := by
  have := le_movedLine bs j
  have := h.2.1
  rw [movedLine_cons h, shiftLine_below (by omega) (by omega)]

/-- Moved by the blocks below it, a line lies in a block as before. -/
theorem movedLine_mem_iff {b : Block} (h : InOrder n i (b :: bs)) (j : Nat) :
    b.start ≤ movedLine bs j ∧ movedLine bs j ≤ b.last ↔ b.start ≤ j ∧ j ≤ b.last := by
  by_cases hj : j ≤ b.last
  · rw [movedLine_of_le h hj]
  · have := le_movedLine bs j
    omega

end CallGuard
