import CallGuard.Proofs.Layout
import CallGuard.Proofs.Marking
set_option autoImplicit false

/-!
# The lines of an output

`enclose` puts a guard around one span of lines. The lines of an output are those of the text with
one span after the other enclosed, the lowest first, so that the spans above keep their numbers.
-/
namespace CallGuard

/-- The break that a line without terminator gets when a marker line follows it. -/
def gap (first last : Line) : Text := if terminator last = [] then lineBreak first else []

def openingText (d : Dialect) (first : Line) : Text :=
  indent first ++ d.openMarker ++ lineBreak first

def closingText (d : Dialect) (first last : Line) : Text :=
  indent first ++ d.closeMarker ++ if terminator last = [] then [] else lineBreak first

def insertAround (above below : List Line) (s e : Nat) (ls : List Line) : List Line :=
  ls.take s ++ (above ++ (between ls s (e + 1) ++ (below ++ ls.drop (e + 1))))

/-- Gives line `e` the break of line `s` when it has none. -/
def breakAt (s e : Nat) (ls : List Line) : List Line :=
  ls.set e (lineAt ls e ++ gap (lineAt ls s) (lineAt ls e))

def enclose (d : Dialect) (s e : Nat) (ls : List Line) : List Line :=
  insertAround (splitLines (openingText d (lineAt ls s)))
    (splitLines (closingText d (lineAt ls s) (lineAt ls e))) s e (breakAt s e ls)

def encloseAll (d : Dialect) (ls : List Line) : List Block → List Line
  | [] => ls
  | b :: bs => enclose d b.start b.last (encloseAll d ls bs)

section
variable {ls : List Line} {i j s e : Nat}

theorem lineAt_append_left {ms : List Line} (h : i < ls.length) :
    lineAt (ls ++ ms) i = lineAt ls i := by
  rw [lineAt, lineAt, List.getElem?_append_left h]

theorem lineAt_append_right {ms : List Line} (h : ls.length ≤ i) :
    lineAt (ls ++ ms) i = lineAt ms (i - ls.length) := by
  rw [lineAt, lineAt, List.getElem?_append_right h]

theorem lineAt_eq_of_take_eq {ms : List Line} {n : Nat} (h : ls.take n = ms.take n) (hi : i < n) :
    lineAt ls i = lineAt ms i := by
  have := congrArg (·[i]?) h
  simp only [List.getElem?_take_of_lt hi] at this
  rw [lineAt, lineAt, this]

theorem Lined.ended_lineAt (h : Lined ls) (hi : i + 1 < ls.length) : Ended (lineAt ls i) := by
  rw [lineAt_eq_getElem (by omega)]
  exact h.take_ended hi _ (List.mem_take_iff_getElem.2 ⟨i, by omega, rfl⟩)

theorem Lined.eq_last (h : Lined ls) (hi : i < ls.length) (ht : terminator (lineAt ls i) = []) :
    i + 1 = ls.length := by
  by_contra hn
  exact (h.ended_lineAt (by omega)).terminator_ne_nil ht

theorem breakAt_length : (breakAt s e ls).length = ls.length := List.length_set

theorem breakAt_of_terminator (h : terminator (lineAt ls e) ≠ []) : breakAt s e ls = ls := by
  rw [breakAt, gap, if_neg h, List.append_nil]
  by_cases he : e < ls.length
  · rw [lineAt_eq_getElem he, List.set_getElem_self]
  · exact List.set_eq_of_length_le (by omega)

theorem breakAt_take (h : j ≤ e) : (breakAt s e ls).take j = ls.take j := List.take_set_of_le h

theorem breakAt_drop (h : e < j) : (breakAt s e ls).drop j = ls.drop j := List.drop_set_of_lt h

theorem lineAt_breakAt (h : i ≠ e) : lineAt (breakAt s e ls) i = lineAt ls i := by
  rw [lineAt, breakAt, List.getElem?_set_ne (Ne.symm h), lineAt]

theorem lineAt_breakAt_self (h : e < ls.length) :
    lineAt (breakAt s e ls) e = lineAt ls e ++ gap (lineAt ls s) (lineAt ls e) := by
  rw [lineAt, breakAt, List.getElem?_set_self h, Option.getD_some]

end

section
variable {d : Dialect} {ls : List Line} {s e : Nat}

theorem closing_eq (b : Block) : closing d ls b = gap (lineAt ls b.start) (lineAt ls b.last) ++
    closingText d (lineAt ls b.start) (lineAt ls b.last) := by
  unfold closing gap closingText
  split <;> simp

theorem openingText_getLast (first : Line) : (openingText d first).getLast? = some '\n' := by
  unfold openingText
  rcases lineBreak_cases first with h | h <;> rw [h] <;> simp

theorem closingText_getLast {first last : Line} (h : terminator last ≠ []) :
    (closingText d first last).getLast? = some '\n' := by
  unfold closingText
  rw [if_neg h]
  rcases lineBreak_cases first with h | h <;> rw [h] <;> simp

theorem breakAt_between (hs : s ≤ e) (he : e < ls.length) :
    between (breakAt s e ls) s (e + 1) =
      between ls s e ++ [lineAt ls e ++ gap (lineAt ls s) (lineAt ls e)] := by
  unfold between
  rw [List.take_succ_eq_append_getElem (by simpa [breakAt_length] using he), breakAt_take (by omega),
    List.drop_append_of_le_length (by simpa using by omega)]
  congr 2
  simp [breakAt]

theorem breakAt_eq (hs : s ≤ e) : breakAt s e ls =
    ls.take s ++ (between (breakAt s e ls) s (e + 1) ++ ls.drop (e + 1)) := by
  have below : (breakAt s e ls).drop (e + 1) = ls.drop (e + 1) := breakAt_drop (by omega)
  rw [← below, ← drop_eq_between_append (by omega : s ≤ e + 1), ← breakAt_take hs,
    List.take_append_drop]

theorem lineAt_mem (he : e < ls.length) : lineAt ls e ∈ ls := by
  rw [lineAt_eq_getElem he]
  exact List.getElem_mem he

/-- With its break a line is complete, so a marker line can follow. -/
theorem ended_append_gap (h : Lined ls) (he : e < ls.length) (first : Line) :
    Ended (lineAt ls e ++ gap first (lineAt ls e)) := by
  unfold gap
  rcases h.mem (lineAt_mem he) with hl | hl
  · rw [if_neg hl.terminator_ne_nil, List.append_nil]
    exact hl
  · rw [if_pos (terminator_eq_nil_iff.2 fun hm => hl (List.mem_of_getLast? hm))]
    exact ended_append_lineBreak hl first

theorem joinLines_between_breakAt (hs : s ≤ e) (he : e < ls.length) :
    joinLines (between (breakAt s e ls) s (e + 1)) =
      joinLines (between ls s (e + 1)) ++ gap (lineAt ls s) (lineAt ls e) := by
  have whole : between ls s (e + 1) = between ls s e ++ [lineAt ls e] := by
    unfold between
    rw [List.take_succ_eq_append_getElem he, lineAt_eq_getElem he,
      List.drop_append_of_le_length (by simpa using by omega)]
  rw [breakAt_between hs he, whole, joinLines_append, joinLines_append]
  simp [joinLines]

theorem enclose_eq (hs : s ≤ e) : enclose d s e ls = ls.take s ++
    (splitLines (openingText d (lineAt ls s)) ++ (between (breakAt s e ls) s (e + 1) ++
      (splitLines (closingText d (lineAt ls s) (lineAt ls e)) ++ ls.drop (e + 1)))) := by
  rw [enclose, insertAround, breakAt_take hs, breakAt_drop (by omega)]

theorem enclose_take {j : Nat} (hs : s ≤ e) (he : e < ls.length) (hj : j ≤ s) :
    (enclose d s e ls).take j = ls.take j := by
  rw [enclose_eq hs, List.take_append_of_le_length (by simpa using by omega), List.take_take,
    Nat.min_eq_left hj]

theorem ended_of_mem_breakAt (h : Lined ls) (hs : s ≤ e) (he : e < ls.length) :
    ∀ l ∈ between (breakAt s e ls) s (e + 1), Ended l := by
  have upto : ∀ l ∈ between ls s e, Ended l :=
    fun l hl => h.take_ended he l (List.mem_of_mem_drop hl)
  rw [breakAt_between hs he]
  intro l hl
  rcases List.mem_append.1 hl with hl | hl
  · exact upto l hl
  · exact List.mem_singleton.1 hl ▸ ended_append_gap h he _

theorem lined_closing_append (h : Lined ls) (he : e < ls.length) (first : Line) :
    Lined (splitLines (closingText d first (lineAt ls e)) ++ ls.drop (e + 1)) := by
  by_cases ht : terminator (lineAt ls e) = []
  · rw [List.drop_eq_nil_of_le (by have := h.eq_last he ht; omega), List.append_nil]
    exact lined_splitLines _
  · exact .append (splitLines_ended (closingText_getLast ht)) (h.drop (e + 1))

theorem lined_enclose (h : Lined ls) (hs : s ≤ e) (he : e < ls.length) :
    Lined (enclose d s e ls) := by
  rw [enclose_eq hs]
  exact .append (h.take_ended (by omega)) (.append (splitLines_ended (openingText_getLast _))
    (.append (ended_of_mem_breakAt h hs he) (lined_closing_append h he _)))

end

section
variable {d : Dialect} {ls : List Line} {bs : List Block} {i n : Nat}

theorem encloseAll_take (h : InOrder ls.length i bs) :
    (encloseAll d ls bs).take i = ls.take i ∧ ls.length ≤ (encloseAll d ls bs).length := by
  induction bs generalizing i with
  | nil => exact ⟨rfl, Nat.le_refl _⟩
  | cons b bs ih =>
    obtain ⟨h1, h2, h3, h4⟩ := h
    obtain ⟨ht, hlen⟩ := ih h4
    rw [encloseAll]
    constructor
    · rw [enclose_take h2 (by omega) h1]
      have := congrArg (List.take i) ht
      rwa [List.take_take, List.take_take, Nat.min_eq_left (by omega)] at this
    · rw [enclose_eq h2]
      simp only [List.length_append, List.length_take, List.length_drop]
      rw [length_between _ _ (by rw [breakAt_length]; omega)]
      omega

theorem lined_encloseAll (hl : Lined ls) (h : InOrder ls.length i bs) :
    Lined (encloseAll d ls bs) := by
  induction bs generalizing i with
  | nil => exact hl
  | cons b bs ih =>
    obtain ⟨-, h2, h3, h4⟩ := h
    have := (encloseAll_take (d := d) h4).2
    exact lined_enclose (ih h4) h2 (by omega)

/-- From a line above the first block on: the lines up to the block, its opening lines, its own lines,
its closing lines, and the rest. -/
theorem encloseAll_drop {b : Block} (h : InOrder ls.length i (b :: bs)) :
    (encloseAll d ls (b :: bs)).drop i = between ls i b.start ++
      (splitLines (openingText d (lineAt ls b.start)) ++
        (between (breakAt b.start b.last ls) b.start (b.last + 1) ++
          (splitLines (closingText d (lineAt ls b.start) (lineAt ls b.last)) ++
            (encloseAll d ls bs).drop (b.last + 1)))) := by
  obtain ⟨h1, h2, h3, h4⟩ := h
  obtain ⟨ht, hlen⟩ := encloseAll_take (d := d) h4
  have first := lineAt_eq_of_take_eq ht (i := b.start) (by omega)
  have last := lineAt_eq_of_take_eq ht (i := b.last) (by omega)
  have same {j k : Nat} (hk : k ≤ b.last + 1) :
      between (encloseAll d ls bs) j k = between ls j k := by
    have := congrArg (List.take k) ht
    rw [List.take_take, List.take_take, Nat.min_eq_left hk] at this
    rw [between, this, between]
  have inside : between (breakAt b.start b.last (encloseAll d ls bs)) b.start (b.last + 1) =
      between (breakAt b.start b.last ls) b.start (b.last + 1) := by
    rw [breakAt_between h2 (by omega), breakAt_between h2 h3, same (by omega), first, last]
  rw [encloseAll, enclose_eq h2, List.drop_append_of_le_length
    (by rw [List.length_take]; omega), inside, first, last]
  change between (encloseAll d ls bs) i b.start ++ _ = _
  rw [same (by omega)]

theorem joinLines_encloseAll (h : InOrder ls.length i bs) :
    joinLines ((encloseAll d ls bs).drop i) = joinSegments (layout d ls i bs) := by
  induction bs generalizing i with
  | nil => exact (joinSegments_map_kept _).symm
  | cons b bs ih =>
    rw [encloseAll_drop h, joinLines_append, joinLines_append, joinLines_append, joinLines_append,
      joinLines_splitLines, joinLines_splitLines, joinLines_between_breakAt h.2.1 h.2.2.1,
      ih h.2.2.2, layout, joinSegments_append, joinSegments_map_kept]
    change _ = _ ++ (_ ++ joinSegments (_ ++ _))
    rw [joinSegments_append, joinSegments_map_kept]
    change _ = _ ++ (_ ++ (_ ++ (closing d ls b ++ _)))
    rw [closing_eq]
    simp only [List.append_assoc]
    rfl

/-- With pieces put to it a text has the lines of the text, one block after the other enclosed. -/
theorem splitLines_insertPieces (hl : Lined ls) (h : InOrder ls.length 0 bs) :
    splitLines (insertPieces d ls bs) = encloseAll d ls bs := by
  have out : insertPieces d ls bs = joinSegments (layout d ls 0 bs) := by
    rw [insertPieces_eq]
    exact joinSegments_layout rfl h
  rw [out, ← joinLines_encloseAll h, List.drop_zero, splitLines_joinLines (lined_encloseAll hl h)]

theorem splitLines_guardCalls_output (hl : Lined ls) :
    splitLines (guardCalls d ls).output = encloseAll d ls (blocks d ls) :=
  splitLines_insertPieces hl (blocks_inOrder d ls)

end

end CallGuard
