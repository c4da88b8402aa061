import CallGuard.Proofs.Layout
set_option autoImplicit false

/-!
# The forward pass

Guards can be put in by one pass that goes from line to line, jumps behind each statement and appends
to the output as it goes. At each of its stations the lines there tell what is yet to come, and a
step only moves a part of that to what has been done. So the pass ends with what `guardCalls` gives.
-/
namespace CallGuard

/-- What a pass has done with the lines before `index`. -/
structure Pass where
  index : Nat := 0
  output : Text := []
  blocks : List Block := []
  unterminated : List Nat := []

/-- Lines between markers that are indented and terminated like the first of them. -/
def emit (d : Dialect) (span : List Line) : Text :=
  match span.head?, span.getLast? with
  | some first, some last =>
    let start := indent first ++ d.openMarker ++ lineBreak first ++ joinLines span
    let marker := indent first ++ d.closeMarker
    if terminator last = [] then start ++ (lineBreak first ++ marker)
    else start ++ (marker ++ lineBreak first)
  | _, _ => []

namespace Pass

def moveBehind (p : Pass) (last : Nat) (out : Text) : Pass :=
  { p with index := last + 1, output := p.output ++ out }

def guard (d : Dialect) (ls : List Line) (p : Pass) (l : Line) (last : Nat) (reason : Reason) :
    Pass :=
  let b : Block := ⟨p.index, last, byteWidth (indent l), reason⟩
  { p.moveBehind last (emit d (between ls b.start (b.last + 1))) with blocks := p.blocks ++ [b] }

def step (d : Dialect) (ls : List Line) (p : Pass) (l : Line) : Pass :=
  if !hasCall d l then p.moveBehind p.index l
  else match verdict d ls p.index with
    | .guarded _ _ =>
      let last := lastLine d ls p.index
      p.moveBehind last (joinLines (between ls p.index (last + 1)))
    | .unguarded reason =>
      match closingLine? d ls p.index with
      | some last => p.guard d ls l last reason
      | none =>
        { p with unterminated := p.unterminated ++ [p.index] }.guard d ls l p.index reason

variable {d : Dialect} {ls : List Line} {p : Pass} {b : Block} {i j : Nat}

theorem index_lt_step (d : Dialect) (ls : List Line) (p : Pass) (l : Line) :
    p.index < (p.step d ls l).index := by
  have here := le_lastLine d ls p.index
  rw [step]
  split
  · exact Nat.lt_succ_self _
  · split
    · exact Nat.lt_succ_of_le here
    · split
      · rename_i closed
        rw [lastLine, closed] at here
        exact Nat.lt_succ_of_le here
      · exact Nat.lt_succ_self _

def run (d : Dialect) (ls : List Line) (p : Pass) : Pass :=
  if h : p.index < ls.length then run d ls (p.step d ls ls[p.index]) else p
termination_by ls.length - p.index
decreasing_by
  have := index_lt_step d ls p ls[p.index]
  omega

/-! ## What is yet to come -/

def blocksFrom (d : Dialect) (ls : List Line) (i : Nat) : List Block :=
  (statementsFrom d 0 i (ls.drop i)).filterMap (block? d ls)

def outcome (d : Dialect) (ls : List Line) (p : Pass) : Guarding where
  output := p.output ++ joinSegments (layout d ls p.index (blocksFrom d ls p.index))
  blocks := p.blocks ++ blocksFrom d ls p.index
  unterminated := p.unterminated ++
    ((blocksFrom d ls p.index).map Block.start).filter fun i => (closingLine? d ls i).isNone

theorem start_of_mem_blocksFrom (h : b ∈ blocksFrom d ls i) : i ≤ b.start := by
  obtain ⟨st, hst, hb⟩ := List.mem_filterMap.1 h
  obtain ⟨j, -, hs, -⟩ := mem_statementsFrom hst
  rw [block?] at hb
  split at hb
  · cases hb
  · cases hb
    change i ≤ st.start
    omega

theorem blocksFrom_call (hc : hasCall d (lineAt ls i)) : blocksFrom d ls i =
    (block? d ls ⟨i, lastLine d ls i⟩).toList ++ blocksFrom d ls (lastLine d ls i + 1) := by
  rw [blocksFrom, walk_jump hc, List.filterMap_cons, blocksFrom]
  cases block? d ls ⟨i, lastLine d ls i⟩ <;> rfl

theorem joinSegments_layout_from {bs : List Block} (hij : i ≤ j) (hb : ∀ b ∈ bs, j ≤ b.start) :
    joinSegments (layout d ls i bs) =
      joinLines (between ls i j) ++ joinSegments (layout d ls j bs) := by
  cases bs with
  | nil =>
    rw [layout, layout, joinSegments_map_kept, joinSegments_map_kept, drop_eq_between_append hij,
      joinLines_append]
  | cons b bs =>
    have split : (ls.take b.start).drop i =
        between (ls.take b.start) i j ++ (ls.take b.start).drop j := drop_eq_between_append hij
    rw [between, List.take_take, Nat.min_eq_left (hb b List.mem_cons_self)] at split
    rw [layout, layout, between, split, List.map_append, List.append_assoc, joinSegments_append,
      joinSegments_map_kept]
    rfl

theorem emit_between (h : b.start ≤ b.last) (hl : b.last < ls.length) :
    emit d (between ls b.start (b.last + 1)) =
      opening d ls b ++ (joinLines (between ls b.start (b.last + 1)) ++ closing d ls b) := by
  have first : (between ls b.start (b.last + 1)).head? = some (lineAt ls b.start) := by
    rw [between_cons (by omega) (by omega), List.head?_cons]
  have last : (between ls b.start (b.last + 1)).getLast? = some (lineAt ls b.last) := by
    rw [between, List.take_succ_eq_append_getElem hl,
      List.drop_append_of_le_length (by rw [List.length_take]; omega), List.getLast?_concat,
      lineAt_eq_getElem hl]
  rw [emit, first, last, opening, closing]
  dsimp only
  split <;> simp only [List.append_assoc]

/-- Lines that no block begins on are only taken over. -/
theorem outcome_moveBehind {last : Nat} (hle : p.index ≤ last + 1)
    (same : blocksFrom d ls p.index = blocksFrom d ls (last + 1)) :
    (p.moveBehind last (joinLines (between ls p.index (last + 1)))).outcome d ls =
      p.outcome d ls := by
  rw [outcome, outcome, same, joinSegments_layout_from hle fun b => start_of_mem_blocksFrom]
  simp only [moveBehind, List.append_assoc]

/-- A block goes from what is yet to come to what has been done. -/
theorem outcome_guard {last : Nat} {reason : Reason} {pushed : List Nat} (hle : p.index ≤ last)
    (hl : last < ls.length) (next : blocksFrom d ls p.index =
      ⟨p.index, last, byteWidth (indent (lineAt ls p.index)), reason⟩ :: blocksFrom d ls (last + 1))
    (hp : pushed = [p.index].filter fun i => (closingLine? d ls i).isNone) :
    ({ p with unterminated := p.unterminated ++ pushed }.guard d ls (lineAt ls p.index) last
      reason).outcome d ls = p.outcome d ls := by
  have emitted := emit_between (d := d)
    (b := ⟨p.index, last, byteWidth (indent (lineAt ls p.index)), reason⟩) hle hl
  have none : between ls p.index p.index = [] := by rw [between, List.drop_take_self]
  rw [outcome, outcome, next, hp, joinSegments_layout_cons, none, Guarding.mk.injEq]
  refine ⟨?_, ?_, ?_⟩
  · change p.output ++ emit d _ ++ _ = _
    rw [emitted]
    simp only [List.append_assoc]
    rfl
  · exact List.append_assoc _ _ _
  · exact (List.append_assoc _ _ _).trans (congrArg _ (List.filter_append _ _).symm)

/-- A step changes nothing in what the pass comes to. -/
theorem outcome_step (d : Dialect) (h : p.index < ls.length) :
    (p.step d ls ls[p.index]).outcome d ls = p.outcome d ls := by
  rw [← lineAt_eq_getElem h, step]
  have inside := lastLine_lt (d := d) h
  have forward := le_lastLine d ls p.index
  cases hc : hasCall d (lineAt ls p.index) with
  | false =>
    have line : joinLines (between ls p.index (p.index + 1)) = lineAt ls p.index := by
      rw [between_cons (by omega) (by omega), between, List.drop_take_self]
      exact List.append_nil _
    have same : blocksFrom d ls p.index = blocksFrom d ls (p.index + 1) := by
      rw [blocksFrom, walk_next hc, blocksFrom]
    have moved := outcome_moveBehind (Nat.le_succ _) same
    rwa [line] at moved
  | true =>
    have next := blocksFrom_call hc
    rw [block?] at next
    rw [if_neg (by simp)]
    cases hv : verdict d ls p.index with
    | guarded above below =>
      rw [hv] at next
      exact outcome_moveBehind (by omega) next
    | unguarded reason =>
      rw [hv] at next
      cases closed : closingLine? d ls p.index with
      | some last =>
        rw [lastLine, closed] at inside forward next
        have none : [] = [p.index].filter fun i => (closingLine? d ls i).isNone := by simp [closed]
        have guarded := outcome_guard forward inside next none
        rwa [List.append_nil] at guarded
      | none =>
        rw [lastLine, closed] at inside forward next
        exact outcome_guard forward inside next (by simp [closed])

theorem outcome_of_le (d : Dialect) (h : ls.length ≤ p.index) :
    p.outcome d ls = ⟨p.output, p.blocks, p.unterminated⟩ := by
  have none : blocksFrom d ls p.index = [] := by
    rw [blocksFrom, List.drop_eq_nil_of_le h]
    rfl
  rw [outcome, none, layout, List.drop_eq_nil_of_le h]
  simp [joinSegments]

theorem outcome_eq_run (d : Dialect) (ls : List Line) (p : Pass) : p.outcome d ls =
    ⟨(p.run d ls).output, (p.run d ls).blocks, (p.run d ls).unterminated⟩ := by
  induction p using run.induct d ls with
  | case1 p h ih => rw [run, dif_pos h, ← ih, outcome_step d h]
  | case2 p h => rw [run, dif_neg h, outcome_of_le d (by omega)]

end Pass

/-- The pass over all lines gives what is defined block by block. -/
theorem guardCalls_eq_run (d : Dialect) (ls : List Line) : guardCalls d ls =
    ⟨(Pass.run d ls {}).output, (Pass.run d ls {}).blocks, (Pass.run d ls {}).unterminated⟩ := by
  rw [← Pass.outcome_eq_run, Pass.outcome, Guarding.mk.injEq]
  exact ⟨guardCalls_output d ls, rfl, rfl⟩

end CallGuard
