import CallGuard.Proofs.Discreet
set_option autoImplicit false

/-!
# Texts put together

When every statement of a text closes in it, what is put below the text adds its own statements and
changes none above. So the guards of two texts without markers, put one below the other, are the
guards of each, those of the second on the lines it has moved to.
-/
namespace CallGuard

def Span.below (n : Nat) (st : Span) : Span := ⟨st.start + n, st.last + n⟩

def Block.below (n : Nat) (b : Block) : Block := { b with start := b.start + n, last := b.last + n }

/-- All that a block says of its text, without the reason. -/
def Block.place (b : Block) : Span × Nat := (b.span, b.indent)

variable {d : Dialect} {ls ms : List Line} {bs cs : List Block} {i k : Nat} {t u : Text}

/-! ## Statements -/

theorem closing?_append (h : closing? d ls = some k) (ms : List Line) :
    closing? d (ls ++ ms) = some k := by
  cases ls with
  | nil => cases h
  | cons l ls =>
    have lt := closing?_lt h
    rw [← List.append_nil ls] at h
    exact closing?_append_of_le h (Nat.le_of_lt_succ lt)

theorem closingLine?_append_left (h : (closingLine? d ls i).isSome) (ms : List Line) :
    closingLine? d (ls ++ ms) i = closingLine? d ls i := by
  obtain ⟨e, he⟩ := Option.isSome_iff_exists.1 h
  rw [closingLine?, Option.map_eq_some_iff] at he
  obtain ⟨k, hk, rfl⟩ := he
  have inside : i ≤ ls.length := by
    have := closing?_lt hk
    rw [List.length_drop] at this
    omega
  rw [closingLine?, List.drop_append_of_le_length inside, closing?_append hk, closingLine?, hk]

theorem closingLine?_append_right (ls ms : List Line) (i : Nat) :
    closingLine? d (ls ++ ms) (i + ls.length) = (closingLine? d ms i).map (· + ls.length) := by
  rw [closingLine?, Nat.add_comm, List.drop_length_add_append, closingLine?, Option.map_map]
  exact congrArg (Option.map · _) (funext fun e => by simp only [Function.comp_apply]; omega)

/-- The walk goes on below lines on which each statement closes that begins there. -/
theorem statementsFrom_append (hk : k ≤ ls.length) (ms : List Line)
    (h : ∀ st ∈ statementsFrom d k i ls, ∀ j, st.start = i + j → (closing? d (ls.drop j)).isSome) :
    statementsFrom d k i (ls ++ ms) =
      statementsFrom d k i ls ++ statementsFrom d 0 (i + ls.length) ms := by
  induction ls generalizing k i with
  | nil =>
    obtain rfl : k = 0 := Nat.le_zero.1 hk
    rfl
  | cons l ls ih =>
    have next : i + (l :: ls).length = i + 1 + ls.length := by
      rw [List.length_cons]
      omega
    rw [next]
    cases k with
    | succ k => exact ih (Nat.le_of_succ_le_succ hk) fun st hst j hj => h st hst (j + 1) (by omega)
    | zero =>
      rw [statementsFrom] at h
      rw [List.cons_append, statementsFrom, statementsFrom]
      split at h
      · rename_i call
        obtain ⟨first, rest⟩ := List.forall_mem_cons.1 h
        obtain ⟨e, he⟩ := Option.isSome_iff_exists.1 (first 0 rfl)
        have same : extent d (l :: (ls ++ ms)) = extent d (l :: ls) := by
          have later := closing?_append he ms
          rw [List.drop_zero] at he later
          rw [extent, extent, he, ← List.cons_append, later]
        rw [if_pos call, if_pos call, same, ih (extent_le l ls) fun st hst j hj =>
          rest st hst (j + 1) (by omega), List.cons_append]
      · rename_i quiet
        rw [if_neg quiet, if_neg quiet]
        exact ih (Nat.zero_le _) fun st hst j hj => h st hst (j + 1) (by omega)

theorem statements_append (h : ∀ st ∈ statements d ls, (closingLine? d ls st.start).isSome)
    (ms : List Line) : statements d (ls ++ ms) =
      statements d ls ++ (statements d ms).map (Span.below ls.length) := by
  have closed : ∀ st ∈ statementsFrom d 0 0 ls, ∀ j, st.start = 0 + j →
      (closing? d (ls.drop j)).isSome := by
    intro st hst j hj
    have := h st hst
    rwa [hj, Nat.zero_add, closingLine?, Option.isSome_map] at this
  have moved := statementsFrom_add (d := d) ls.length 0 0 ms
  rw [statements, statementsFrom_append (Nat.zero_le _) ms closed, moved]
  rfl

/-! ## Pieces -/

/-- The pieces go by the spans of the blocks alone. -/
theorem pieces_congr (h : bs.map Block.span = cs.map Block.span) (i : Nat) :
    pieceBefore d ls bs i = pieceBefore d ls cs i ∧ pieceAfter d ls bs i = pieceAfter d ls cs i := by
  induction bs generalizing cs with
  | nil =>
    rw [List.map_eq_nil_iff.1 h.symm]
    exact ⟨rfl, rfl⟩
  | cons b bs ih =>
    obtain ⟨c, cs, rfl, hc, hcs⟩ := List.map_eq_cons_iff.1 h.symm
    obtain ⟨before, after⟩ := ih hcs.symm
    have start : c.start = b.start := congrArg Span.start hc
    have last : c.last = b.last := congrArg Span.last hc
    constructor
    · rw [pieceBefore_cons, pieceBefore_cons, opening, opening, start, before]
    · rw [pieceAfter_cons, pieceAfter_cons, closing, closing, start, last, after]

theorem insertPieces_congr (h : bs.map Block.span = cs.map Block.span) :
    insertPieces d ls bs = insertPieces d ls cs := by
  have before (i : Nat) : pieceBefore d ls bs i = pieceBefore d ls cs i := (pieces_congr h i).1
  have after (i : Nat) : pieceAfter d ls bs i = pieceAfter d ls cs i := (pieces_congr h i).2
  simp only [insertPieces, before, after]

theorem pieces_append_left (hb : ∀ b ∈ bs, b.start < ls.length ∧ b.last < ls.length)
    (hi : i < ls.length) (ms : List Line) (cs : List Block) :
    pieceBefore d (ls ++ ms) (bs ++ cs.map (Block.below ls.length)) i = pieceBefore d ls bs i ∧
      pieceAfter d (ls ++ ms) (bs ++ cs.map (Block.below ls.length)) i = pieceAfter d ls bs i := by
  induction bs with
  | nil =>
    have far : ∀ c ∈ cs.map (Block.below ls.length), c.start ≠ i ∧ c.last ≠ i := by
      intro c hc
      obtain ⟨c, -, rfl⟩ := List.mem_map.1 hc
      simp only [Block.below]
      omega
    exact ⟨pieceBefore_eq_nil fun c hc => (far c hc).1, pieceAfter_eq_nil fun c hc => (far c hc).2⟩
  | cons b bs ih =>
    obtain ⟨⟨start, last⟩, rest⟩ := List.forall_mem_cons.1 hb
    obtain ⟨before, after⟩ := ih rest
    constructor
    · rw [List.cons_append, pieceBefore_cons, pieceBefore_cons, opening, opening,
        lineAt_append_left start, before]
    · rw [List.cons_append, pieceAfter_cons, pieceAfter_cons, closing, closing,
        lineAt_append_left start, lineAt_append_left last, after]

theorem pieces_append_right (hb : ∀ b ∈ bs, b.start < ls.length ∧ b.last < ls.length)
    (ms : List Line) (cs : List Block) (i : Nat) :
    pieceBefore d (ls ++ ms) (bs ++ cs.map (Block.below ls.length)) (i + ls.length) =
        pieceBefore d ms cs i ∧
      pieceAfter d (ls ++ ms) (bs ++ cs.map (Block.below ls.length)) (i + ls.length) =
        pieceAfter d ms cs i := by
  induction bs with
  | nil =>
    have line (j : Nat) : lineAt (ls ++ ms) (j + ls.length) = lineAt ms j := by
      rw [lineAt_append_right (Nat.le_add_left _ _), Nat.add_sub_cancel]
    rw [List.nil_append]
    induction cs with
    | nil => exact ⟨rfl, rfl⟩
    | cons c cs ih =>
      constructor
      · rw [List.map_cons, pieceBefore_cons, pieceBefore_cons, ih.1]
        simp only [Block.below, opening, line, Nat.add_right_cancel_iff]
      · rw [List.map_cons, pieceAfter_cons, pieceAfter_cons, ih.2]
        simp only [Block.below, closing, line, Nat.add_right_cancel_iff]
  | cons b bs ih =>
    obtain ⟨⟨start, last⟩, rest⟩ := List.forall_mem_cons.1 hb
    obtain ⟨before, after⟩ := ih rest
    constructor
    · rw [List.cons_append, pieceBefore_cons, if_neg (by omega), before]
    · rw [List.cons_append, pieceAfter_cons, if_neg (by omega), after]

theorem insertPieces_append (hb : ∀ b ∈ bs, b.start < ls.length ∧ b.last < ls.length)
    (ms : List Line) (cs : List Block) :
    insertPieces d (ls ++ ms) (bs ++ cs.map (Block.below ls.length)) =
      insertPieces d ls bs ++ insertPieces d ms cs := by
  have lower : ms.zipIdx (0 + ls.length) = (ms.zipIdx 0).map fun x => (x.1, x.2 + ls.length) := by
    rw [Nat.add_comm]
    exact (List.map_snd_add_zipIdx_eq_zipIdx (k := 0)).symm
  rw [insertPieces_eq, insertPieces_eq, insertPieces_eq, List.zipIdx_append, List.flatMap_append,
    lower, List.flatMap_map]
  congr 1
  · apply List.flatMap_congr
    rintro ⟨l, i⟩ hx
    obtain ⟨-, inside, -⟩ := List.mem_zipIdx hx
    rw [Nat.zero_add] at inside
    obtain ⟨before, after⟩ := pieces_append_left (d := d) hb inside ms cs
    rw [dressed, before, after, dressed]
  · apply List.flatMap_congr
    rintro ⟨l, i⟩ -
    obtain ⟨before, after⟩ := pieces_append_right (d := d) hb ms cs i
    rw [dressed, before, after, dressed]

/-! ## Texts without markers -/

theorem place_blocks_of_fresh (hf : ∀ l ∈ ls, d.isMarker l = false) :
    (blocks d ls).map Block.place =
      (statements d ls).map fun st => (st, byteWidth (indent (lineAt ls st.start))) := by
  rw [blocks_of_fresh hf, List.map_map]
  apply List.map_congr_left
  intro b hb
  rw [Block.place, (blocks_bounds hb).2.2]
  rfl

theorem unterminated_of_fresh (hf : ∀ l ∈ ls, d.isMarker l = false) :
    (guardCalls d ls).unterminated =
      ((statements d ls).map Span.start).filter fun i => (closingLine? d ls i).isNone := by
  rw [blocks_of_fresh hf, List.map_map]
  rfl

section
variable (hl : ∀ l ∈ ls, d.isMarker l = false) (hm : ∀ l ∈ ms, d.isMarker l = false)
  (closed : (guardCalls d ls).unterminated = [])
include hl closed

/-- In a text without markers the unterminated statements are all that never close. -/
theorem closed_of_fresh : ∀ st ∈ statements d ls, (closingLine? d ls st.start).isSome := by
  rw [unterminated_of_fresh hl, List.filter_eq_nil_iff] at closed
  intro st hst
  exact Option.isSome_iff_ne_none.2 (by simpa using closed st.start (List.mem_map_of_mem hst))

include hm

theorem place_blocks_append : (blocks d (ls ++ ms)).map Block.place =
    (blocks d ls).map Block.place ++ (blocks d ms).map fun b => (b.below ls.length).place := by
  have lower : (blocks d ms).map (fun b => (b.below ls.length).place) =
      ((blocks d ms).map Block.place).map fun x => (x.1.below ls.length, x.2) := by
    rw [List.map_map]
    rfl
  rw [lower, place_blocks_of_fresh (List.forall_mem_append.2 ⟨hl, hm⟩), place_blocks_of_fresh hl,
    place_blocks_of_fresh hm, statements_append (closed_of_fresh hl closed), List.map_append,
    List.map_map, List.map_map]
  congr 1
  · apply List.map_congr_left
    intro st hst
    rw [lineAt_append_left (mem_statements hst).1]
  · apply List.map_congr_left
    intro st _
    have line : lineAt (ls ++ ms) (st.start + ls.length) = lineAt ms st.start := by
      rw [lineAt_append_right (Nat.le_add_left _ _), Nat.add_sub_cancel]
    simp only [Function.comp_apply, Span.below, line]

theorem output_append :
    (guardCalls d (ls ++ ms)).output = (guardCalls d ls).output ++ (guardCalls d ms).output := by
  have spans : (blocks d (ls ++ ms)).map Block.span =
      (blocks d ls ++ (blocks d ms).map (Block.below ls.length)).map Block.span := by
    have places := congrArg (List.map Prod.fst) (place_blocks_append hl hm closed)
    rw [List.map_append, List.map_map, List.map_map, List.map_map] at places
    rw [List.map_append, List.map_map]
    exact places
  have inside : ∀ b ∈ blocks d ls, b.start < ls.length ∧ b.last < ls.length := by
    intro b hb
    have := blocks_bounds hb
    omega
  change insertPieces d (ls ++ ms) (blocks d (ls ++ ms)) = _
  rw [insertPieces_congr spans, insertPieces_append inside]
  rfl

theorem unterminated_append : (guardCalls d (ls ++ ms)).unterminated =
    (guardCalls d ms).unterminated.map (· + ls.length) := by
  have above : ((statements d ls).map Span.start).filter
      (fun i => (closingLine? d (ls ++ ms) i).isNone) = [] := by
    rw [List.filter_eq_nil_iff]
    intro i hi
    obtain ⟨st, hst, rfl⟩ := List.mem_map.1 hi
    have here := closed_of_fresh hl closed st hst
    rw [closingLine?_append_left here]
    simpa using Option.isSome_iff_ne_none.1 here
  have starts : ((statements d ms).map (Span.below ls.length)).map Span.start =
      ((statements d ms).map Span.start).map (· + ls.length) := by
    rw [List.map_map, List.map_map]
    rfl
  rw [unterminated_of_fresh (List.forall_mem_append.2 ⟨hl, hm⟩), unterminated_of_fresh hm,
    statements_append (closed_of_fresh hl closed), List.map_append, List.filter_append, above,
    List.nil_append, starts, List.filter_map]
  congr 1
  apply List.filter_congr
  intro i _
  rw [Function.comp_apply, closingLine?_append_right, Option.isNone_map]

end

/-- The guards of two texts without markers, the second put below the first. -/
theorem guardText_append (ht : Fresh d t) (hu : Fresh d u) (seam : t = [] ∨ t.getLast? = some '\n')
    (closed : (guardText d t).unterminated = []) :
    let n := (splitLines t).length
    let g := guardText d (t ++ u)
    g.output = (guardText d t).output ++ (guardText d u).output ∧
    g.blocks.map Block.place = (guardText d t).blocks.map Block.place ++
      (guardText d u).blocks.map (fun b => (b.below n).place) ∧
    g.unterminated = (guardText d u).unterminated.map (· + n) := by
  intro n g
  have lines : g = guardCalls d (splitLines t ++ splitLines u) := by
    rw [← splitLines_append seam]
    rfl
  rw [lines]
  exact ⟨output_append ht hu closed, place_blocks_append ht hu closed,
    unterminated_append ht hu closed⟩

/-- It ends in a declaration, which stands above the first call of the text below. -/
def upperText : Text := "\tprint(a,\n\tb)\nfunc f()\n".toList

/-- Its first call never closes. -/
def lowerText : Text := "  print(c\nprint(d)".toList

theorem guardText_append_upperText :
    let g := guardText .swift (upperText ++ lowerText)
    (Fresh .swift upperText ∧ Fresh .swift lowerText ∧ upperText.getLast? = some '\n' ∧
      (guardText .swift upperText).unterminated = []) ∧
    g.output = (guardText .swift upperText).output ++ (guardText .swift lowerText).output ∧
    g.blocks.map Block.place = [(⟨0, 1⟩, 1), (⟨3, 3⟩, 2), (⟨4, 4⟩, 0)] ∧ g.unterminated = [3] := by
  intro g
  have upper : Fresh .swift upperText := by decide +kernel
  have lower : Fresh .swift lowerText := by decide +kernel
  have seam : upperText.getLast? = some '\n' := by decide
  have closed : (guardText .swift upperText).unterminated = [] := by decide +kernel
  obtain ⟨output, places, unterminated⟩ := guardText_append upper lower (Or.inr seam) closed
  refine ⟨⟨upper, lower, seam, closed⟩, output, ?_, ?_⟩
  · rw [places]
    decide +kernel
  · rw [unterminated]
    decide +kernel

end CallGuard
