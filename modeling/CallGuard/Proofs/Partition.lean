import CallGuard.Proofs.Residual
set_option autoImplicit false

/-!
# Calls and the statements that hold them

The walk over a text shares out its calls among the statements it visits: each begins one statement
or lies inside one, never both. The blocks are the visited statements without a guard. Since the
search for the sake of coverage finds no less than the one for the sake of a statement, a call that
is not covered begins a block or lies inside a statement.
-/
namespace CallGuard

variable {d : Dialect} {ls : List Line} {i j s : Nat}

/-- Line `i` lies in the statement that begins on line `s`, below its first line. -/
def Inside (d : Dialect) (ls : List Line) (s i : Nat) : Prop := s < i ∧ i ≤ lastLine d ls s

/-- The call on line `i` belongs to the statement visited on line `s`. -/
def Holds (d : Dialect) (ls : List Line) (s i : Nat) : Prop :=
  Visited d ls s ∧ (s = i ∨ Inside d ls s i)

theorem Holds.bounds (h : Holds d ls s i) : s ≤ i ∧ i ≤ lastLine d ls s := by
  obtain ⟨-, rfl | inside⟩ := h
  · exact ⟨Nat.le_refl _, le_lastLine d ls _⟩
  · exact ⟨inside.1.le, inside.2⟩

theorem Visited.mem_statements (h : Visited d ls s) : ⟨s, lastLine d ls s⟩ ∈ statements d ls :=
  mem_statements_iff.2 ⟨h, rfl⟩

/-- The walk visits at most one statement that holds a line. -/
theorem Holds.unique (hi : Holds d ls s i) (hj : Holds d ls j i) : j = s := by
  have here := hi.bounds
  have there := hj.bounds
  rcases statements_apart hi.1.mem_statements hj.1.mem_statements with same | above | below
  · exact (congrArg Span.start same).symm
  · dsimp only at above
    omega
  · dsimp only at below
    omega

theorem exists_holds (hc : hasCall d (lineAt ls i)) : ∃ s, Holds d ls s i := by
  obtain ⟨st, hst, first, last⟩ := exists_statement_around hc
  obtain ⟨visited, reach⟩ := mem_statements_iff.1 hst
  exact ⟨st.start, visited, first.eq_or_lt.imp_right fun lt => ⟨lt, reach ▸ last⟩⟩

/-- A block is a visited statement with its verdict. -/
theorem mem_blocks_iff_visited {b : Block} : b ∈ blocks d ls ↔ Visited d ls b.start ∧
    verdict d ls b.start = .unguarded b.reason ∧ b.last = lastLine d ls b.start ∧
      b.indent = byteWidth (indent (lineAt ls b.start)) := by
  rw [mem_blocks]
  constructor
  · rintro ⟨st, hst, r, hr, rfl⟩
    obtain ⟨visited, reach⟩ := mem_statements_iff.1 hst
    exact ⟨visited, hr, reach, rfl⟩
  · rintro ⟨visited, hr, reach, width⟩
    exact ⟨⟨b.start, b.last⟩, mem_statements_iff.2 ⟨visited, reach⟩, b.reason, hr, by rw [← width]⟩

theorem lastLine_of_never (h : closingLine? d ls s = none) : lastLine d ls s = s := by
  rw [lastLine, h, Option.getD_none]

theorem unterminated_eq (d : Dialect) (ls : List Line) : (guardCalls d ls).unterminated =
    ((blocks d ls).filter fun b => closingLine? d ls b.start = none).map Block.start := by
  change ((blocks d ls).map Block.start).filter _ = _
  rw [List.filter_map]
  congr 1
  apply List.filter_congr
  intro b _
  rw [Bool.eq_iff_iff, decide_eq_true_iff]
  exact Option.isNone_iff_eq_none

/-- Each line with a call belongs to exactly one visited statement, as its first line or as a line
inside it. The blocks are, from above, the visited statements that have no guard, each with the
reason and its last line; unterminated are those of them whose nesting never closes, and these have
one line. A call that is not covered begins a block or lies inside a visited statement. -/
theorem guardText_misses_no_call (d : Dialect) (t : Text) :
    let ls := splitLines t
    let g := guardText d t
    (∀ i, hasCall d (lineAt ls i) → ∃! s, Holds d ls s i) ∧
    (g.blocks.Pairwise fun a b => a.last < b.start) ∧
    (∀ b, b ∈ g.blocks ↔ Visited d ls b.start ∧ verdict d ls b.start = .unguarded b.reason ∧
      b.last = lastLine d ls b.start ∧ b.indent = byteWidth (indent (lineAt ls b.start))) ∧
    g.unterminated = (g.blocks.filter fun b => closingLine? d ls b.start = none).map Block.start ∧
    (∀ b ∈ g.blocks, closingLine? d ls b.start = none → b.last = b.start) ∧
    ∀ u ∈ uncovered d ls, (∃ b ∈ g.blocks, b.start = u.line) ∨
      ∃ s, Visited d ls s ∧ Inside d ls s u.line := by
  intro ls g
  refine ⟨fun i hc => ?_, blocks_pairwise d ls, fun b => mem_blocks_iff_visited, unterminated_eq d ls,
    fun b hb never => ?_, fun u hu => ?_⟩
  · obtain ⟨s, hs⟩ := exists_holds hc
    exact ⟨s, hs, fun j hj => hs.unique hj⟩
  · rw [(mem_blocks_iff_visited.1 hb).2.2.1, lastLine_of_never never]
  · rw [uncovered_eq, List.mem_filter] at hu
    obtain ⟨call, bare⟩ := hu
    obtain ⟨s, visited, rfl | inside⟩ := exists_holds (mem_callsFrom call).2
    · -- a statement that gets no block is covered
      rcases isCovered_of_statement visited.mem_statements with covered | blocked
      · rw [covered] at bare
        cases bare
      · exact Or.inl blocked
    · exact Or.inr ⟨s, visited, inside⟩

/-- The second call is an argument of the first, the third is guarded and the last never closes. -/
def nestedCalls : Text := "print(a,\nprint(b))\n#if DEBUG\nprint(c)\n#endif\nprint(d\n".toList

theorem guardText_misses_no_call_nestedCalls :
    let ls := splitLines nestedCalls
    let g := guardText .swift nestedCalls
    Holds .swift ls 0 1 ∧ ¬Visited .swift ls 1 ∧ ⟨1, 0⟩ ∈ uncovered .swift ls ∧
      g.blocks = [⟨0, 1, 0, .noOpen⟩, ⟨5, 5, 0, .noOpen⟩] ∧ g.unterminated = [5] := by
  intro ls g
  obtain ⟨shared, -, -, unterminated, -⟩ := guardText_misses_no_call .swift nestedCalls
  have inside : Inside .swift ls 0 1 := ⟨Nat.one_pos, by decide +kernel⟩
  have holds : Holds .swift ls 0 1 := ⟨⟨.zero, by decide +kernel⟩, Or.inr inside⟩
  have blocks : g.blocks = [⟨0, 1, 0, .noOpen⟩, ⟨5, 5, 0, .noOpen⟩] := by decide +kernel
  refine ⟨holds, fun visited => ?_, by decide +kernel, blocks, ?_⟩
  · exact absurd ((shared 1 (by decide +kernel)).unique ⟨visited, Or.inl rfl⟩ holds) Nat.one_ne_zero
  · rw [unterminated, blocks]
    decide +kernel

end CallGuard
