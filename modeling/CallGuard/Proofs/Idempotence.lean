import CallGuard.Proofs.Moving
import CallGuard.Proofs.Search
set_option autoImplicit false

/-!
# Guarding an output again

When no statement has a marker inside it, the output of a text stands as it is: each new guard
holds its statement, and the searches from the other statements step over it.
-/
namespace CallGuard

variable {d : Dialect} {ls : List Line} {bs : List Block} {i s e : Nat}

theorem map_look_breakAt (s e : Nat) (ls : List Line) :
    (breakAt s e ls).map d.look = ls.map d.look := by
  rw [breakAt, List.map_set, look_append_blank fun c hc => isBlank_of_mem_gap hc]
  by_cases he : e < ls.length
  · have len : e < (ls.map d.look).length := by simpa using he
    have here : (ls.map d.look)[e] = d.look (lineAt ls e) := by
      rw [List.getElem_map, lineAt_eq_getElem he]
    rw [← here, List.set_getElem_self]
  · exact List.set_eq_of_length_le (by simpa using he)

theorem isMarker_breakAt (s e i : Nat) (ls : List Line) :
    d.isMarker (lineAt (breakAt s e ls) i) = d.isMarker (lineAt ls i) := by
  rcases preserved_breakAt s e i ls with h | ⟨-, k, h⟩
  · rw [h]
  · rw [h, isMarker_append_blank d fun c hc => isBlank_of_mem_lineBreak hc]

theorem mem_between {j : Nat} {m : Line} (h : m ∈ between ls i j) :
    ∃ k, i ≤ k ∧ k < j ∧ m = lineAt ls k := by
  obtain ⟨k, hk, rfl⟩ := List.mem_iff_getElem.1 h
  have len : k < (between ls i j).length := hk
  simp only [between, List.length_drop, List.length_take] at len
  refine ⟨i + k, by omega, by omega, ?_⟩
  rw [lineAt_eq_getElem (by omega)]
  simp [between]

/-- One statement enclosed: it stands between markers, and for the others nothing changes. -/
theorem framed_enclose (hd : d.Neutral) (hst : ⟨s, e⟩ ∈ statements d ls)
    (hm : ∀ j, s ≤ j → j ≤ e → d.isMarker (lineAt ls j) = false) {st : Span}
    (h : st ∈ statements d ls) : framed d (enclose d s e ls) (st.shift 1 1 s e) =
      (decide (st = ⟨s, e⟩) || framed d ls st) := by
  have hs : s ≤ e := start_le_last hst
  have he : e < ls.length := last_lt hst
  have hle := start_le_last h
  have opens := opensGuard_openingText d (lineAt ls s)
  have closes := closesGuard_closingText d (lineAt ls s) (lineAt ls e)
  have len := length_between_breakAt (s := s) he
  have above : (ls.take s).length = s := by
    rw [List.length_take]
    omega
  have inside : ∀ m ∈ between (breakAt s e ls) s (e + 1), d.isMarker m = false := by
    intro m hmem
    obtain ⟨j, h1, h2, rfl⟩ := mem_between hmem
    rw [isMarker_breakAt]
    exact hm j h1 (by omega)
  have before : framed d ls st = framed d (ls.take s ++ (between (breakAt s e ls) s (e + 1) ++
      ls.drop (e + 1))) st := by
    rw [← breakAt_eq hs]
    exact (framed_congr (map_look_breakAt s e ls) st).symm
  have whole : st.last < (ls.take s ++ (between (breakAt s e ls) s (e + 1) ++
      ls.drop (e + 1))).length := by
    rw [← breakAt_eq hs, breakAt_length]
    exact last_lt h
  rw [enclose_cut hd.unbroken hs]
  rcases statements_apart h hst with rfl | hlast | hlast
  · rw [decide_eq_true rfl, Bool.true_or]
    refine framed_inside opens closes ?_ ?_
    · rw [above]
      exact shiftLine_inside (Nat.le_refl s) hs
    · rw [above, len, show s + (e + 1 - s) = e + 1 by omega]
      exact shiftLine_inside hs (Nat.le_refl e)
  · have hlast : st.last < s := hlast
    have new := framed_insert hd.exclusive opens closes inside hle whole (Or.inl (by omega))
    rw [if_pos (by omega)] at new
    have ne : st ≠ ⟨s, e⟩ := fun h => by rw [h] at hle hlast; simp only at hle hlast; omega
    rw [decide_eq_false ne, Bool.false_or, before, Span.shift, shiftLine_above (by omega),
      shiftLine_above hlast]
    exact new
  · have hlast : e < st.start := hlast
    have new := framed_insert hd.exclusive opens closes inside hle whole (Or.inr (by omega))
    rw [if_neg (by omega)] at new
    have ne : st ≠ ⟨s, e⟩ := fun h => by rw [h] at hlast; simp only at hlast; omega
    rw [decide_eq_false ne, Bool.false_or, before, Span.shift, shiftLine_below (by omega) hlast,
      shiftLine_below (by omega) (by omega)]
    exact new

/-- All blocks enclosed: their statements stand between markers, and for the others nothing
changes. -/
theorem framed_encloseAll (hd : d.Neutral) (hl : Lined ls)
    (hb : ∀ b ∈ bs, ⟨b.start, b.last⟩ ∈ statements d ls) (h : InOrder ls.length i bs)
    (hm : ∀ b ∈ bs, ∀ j, b.start ≤ j → j ≤ b.last → d.isMarker (lineAt ls j) = false) {st : Span}
    (hst : st ∈ statements d ls) : framed d (encloseAll d ls bs) (st.moved bs) =
      (bs.any (fun b => b.start == st.start) || framed d ls st) := by
  induction bs generalizing i with
  | nil => rfl
  | cons b bs ih =>
    have hb' := fun c hc => hb c (List.mem_cons_of_mem b hc)
    have tail := ih hb' h.2.2.2 fun c hc => hm c (List.mem_cons_of_mem b hc)
    have moved := statements_encloseAll hd hl hb' h.2.2.2
    have here := head_mem_statements (hb b List.mem_cons_self) h
    have there : st.moved bs ∈ (statements d ls).map (Span.moved bs) := List.mem_map_of_mem hst
    rw [← moved] at here there
    -- the lines of the block are still those of the text
    have same (j : Nat) (hj : j ≤ b.last) : lineAt (encloseAll d ls bs) j = lineAt ls j :=
      lineAt_eq_of_take_eq (encloseAll_take h.2.2.2).1 (by omega)
    have inside : ∀ j, b.start ≤ j → j ≤ b.last →
        d.isMarker (lineAt (encloseAll d ls bs) j) = false := by
      intro j h1 h2
      rw [same j h2]
      exact hm b List.mem_cons_self j h1 h2
    have target : decide (st.moved bs = ⟨b.start, b.last⟩) = (b.start == st.start) := by
      have fixed : Span.moved bs ⟨b.start, b.last⟩ = ⟨b.start, b.last⟩ :=
        moved_eq_self h.2.1 h.2.2.2
      rw [Bool.eq_iff_iff, decide_eq_true_iff, beq_iff_eq]
      constructor
      · intro e
        exact (movedLine_inj h.2.2.2 (congrArg Span.start (e.trans fixed.symm))).symm
      · intro e
        rw [statement_ext hst (hb b List.mem_cons_self) e.symm, fixed]
    rw [encloseAll, moved_cons h, framed_enclose hd here inside there, tail, target, List.any_cons,
      Bool.or_assoc]

theorem block_mem_statements {b : Block} (h : b ∈ blocks d ls) :
    ⟨b.start, b.last⟩ ∈ statements d ls := by
  obtain ⟨st, hst, r, -, rfl⟩ := mem_blocks.1 h
  exact hst

theorem guardText_output_of_no_blocks {t : Text} (h : (guardText d t).blocks = []) :
    (guardText d t).output = t := by
  have out := guardCalls_output d (splitLines t)
  have none : blocks d (splitLines t) = [] := h
  rw [none, layout, joinSegments_map_kept, List.drop_zero, joinLines_splitLines] at out
  exact out

/-- When no statement that the walk visits has a marker inside it, guarding the output of a text
adds nothing. -/
theorem guardText_idempotent (hd : d.Neutral) (t : Text)
    (hm : ∀ i, Visited d (splitLines t) i → ∀ j, i ≤ j → j ≤ lastLine d (splitLines t) i →
      d.isMarker (lineAt (splitLines t) j) = false) :
    (guardText d (guardText d t).output).blocks = [] ∧
      (guardText d (guardText d t).output).output = (guardText d t).output := by
  have lined := lined_splitLines t
  have order := blocks_inOrder d (splitLines t)
  have spans : ∀ b ∈ blocks d (splitLines t), ⟨b.start, b.last⟩ ∈ statements d (splitLines t) :=
    fun b hb => block_mem_statements hb
  have unmarked : ∀ b ∈ blocks d (splitLines t), ∀ j, b.start ≤ j → j ≤ b.last →
      d.isMarker (lineAt (splitLines t) j) = false := by
    intro b hb j h1 h2
    obtain ⟨visited, last⟩ := mem_statements_iff.1 (spans b hb)
    exact hm b.start visited j h1 (last ▸ h2)
  have none : (guardText d (guardText d t).output).blocks = [] := by
    change blocks d (splitLines (guardCalls d (splitLines t)).output) = []
    rw [splitLines_guardCalls_output lined]
    apply blocks_eq_nil
    intro moved hmoved
    rw [statements_encloseAll hd lined spans order] at hmoved
    obtain ⟨st, hst, rfl⟩ := List.mem_map.1 hmoved
    rw [framed_encloseAll hd lined spans order unmarked hst]
    cases hf : framed d (splitLines t) st with
    | true => exact Bool.or_true _
    | false =>
      obtain ⟨b, hb, e⟩ := (exists_block_iff hst).2 hf
      rw [Bool.or_false]
      exact List.any_eq_true.2 ⟨b, hb, by simpa using e⟩
  exact ⟨none, guardText_output_of_no_blocks none⟩

/-- A guarded call, a call in a declaration and a call that never closes. -/
def sampleText : Text :=
  "#if DEBUG\nprint(a)\n#endif\r\nfunc f() \x7b\n  print(\n    b)\r\n\x7d\nprint(c".toList

theorem guardText_idempotent_sampleText : (guardText .swift sampleText).count = 2 ∧
    (guardText .swift (guardText .swift sampleText).output).blocks = [] ∧
      (guardText .swift (guardText .swift sampleText).output).output =
        (guardText .swift sampleText).output := by
  have spans : ∀ st ∈ statements .swift (splitLines sampleText), ∀ j < st.last + 1, st.start ≤ j →
      Dialect.swift.isMarker (lineAt (splitLines sampleText) j) = false := by
    decide +kernel
  refine ⟨by decide +kernel, guardText_idempotent Dialect.swift_neutral _ fun i hv j h1 h2 => ?_⟩
  exact spans ⟨i, lastLine .swift (splitLines sampleText) i⟩ (mem_statements_iff.2 ⟨hv, rfl⟩) j
    (Nat.lt_succ_of_le h2) h1

end CallGuard
