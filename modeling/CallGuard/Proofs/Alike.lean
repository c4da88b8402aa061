import CallGuard.Proofs.Residual
set_option autoImplicit false

/-!
# Lines that look alike

Guarding sees no more of a line than its calls, its delimiters in code, the state it leaves behind,
what it is to the searches for markers, and its indentation. Where each line of a text is replaced by
one that is alike in these, the statements, verdicts, blocks and uncovered calls stay the same.
-/
namespace CallGuard

structure Alike (d : Dialect) (l k : Line) : Prop where
  call : callAt? d l = callAt? d k
  column : callColumn? d l = callColumn? d k
  depth : ∀ (s : Scan) (n : Nat), openDepth d n (classify d s l) = openDepth d n (classify d s k)
  head : callDepth? d l = callDepth? d k
  after : ∀ s : Scan, s.after d l = s.after d k
  look : d.look l = d.look k
  indent : indent l = indent k

variable {d : Dialect} {ls : List Line} {f : Line → Line} {i : Nat}

theorem lineAt_map (h : i < ls.length) : lineAt (ls.map f) i = f (lineAt ls i) := by
  rw [lineAt, lineAt, List.getElem?_map, List.getElem?_eq_getElem h]
  rfl

section
variable (h : ∀ l ∈ ls, Alike d (f l) l)
include h

theorem map_look_alike : (ls.map f).map d.look = ls.map d.look := by
  rw [List.map_map]
  exact List.map_congr_left fun l hl => (h l hl).look

theorem closingFrom_alike (s : Scan) (n : Nat) :
    closingFrom d s n (ls.map f) = closingFrom d s n ls := by
  induction ls generalizing s n with
  | nil => rfl
  | cons l ls ih =>
    obtain ⟨first, rest⟩ := List.forall_mem_cons.1 h
    rw [List.map_cons, closingFrom, closingFrom, first.depth, first.after]
    simp only [ih rest]

theorem closing?_alike : closing? d (ls.map f) = closing? d ls := by
  cases ls with
  | nil => rfl
  | cons l ls =>
    obtain ⟨first, rest⟩ := List.forall_mem_cons.1 h
    rw [List.map_cons]
    cases hn : callDepth? d l with
    | none => rw [closing?_of_none hn, closing?_of_none (first.head.trans hn)]
    | some n =>
      rw [closing?_of_some hn, closing?_of_some (first.head.trans hn), first.after,
        closingFrom_alike rest]

theorem extent_alike : extent d (ls.map f) = extent d ls := by
  rw [extent, closing?_alike h, extent]

theorem closingLine?_alike (i : Nat) : closingLine? d (ls.map f) i = closingLine? d ls i := by
  rw [closingLine?, ← List.map_drop, closing?_alike fun l hl => h l (List.mem_of_mem_drop hl),
    closingLine?]

theorem statementsFrom_alike (k i : Nat) :
    statementsFrom d k i (ls.map f) = statementsFrom d k i ls := by
  induction ls generalizing k i with
  | nil => rfl
  | cons l ls ih =>
    obtain ⟨first, rest⟩ := List.forall_mem_cons.1 h
    rw [List.map_cons]
    cases k with
    | succ k => exact ih rest k (i + 1)
    | zero =>
      have calls : hasCall d (f l) = hasCall d l := by rw [hasCall, first.call, hasCall]
      have reach : extent d (f l :: ls.map f) = extent d (l :: ls) := extent_alike h
      rw [statementsFrom, statementsFrom, calls, reach, ih rest, ih rest]

theorem verdict_alike (i : Nat) : verdict d (ls.map f) i = verdict d ls i := by
  have looks := map_look_alike h
  rw [verdict, opener_congr looks, lastLine, closingLine?_alike h, ← lastLine]
  simp only [closer?_congr looks, verdict]

theorem blocks_alike : blocks d (ls.map f) = blocks d ls := by
  rw [blocks, statements, statementsFrom_alike h]
  apply List.filterMap_congr
  intro st hst
  have here := (mem_statements hst).1
  have first := h _ (lineAt_mem here)
  rw [block?, block?, verdict_alike h, lineAt_map here, first.indent]

theorem unterminated_alike :
    (guardCalls d (ls.map f)).unterminated = (guardCalls d ls).unterminated := by
  change ((blocks d (ls.map f)).map Block.start).filter _ =
    ((blocks d ls).map Block.start).filter _
  simp only [blocks_alike h, closingLine?_alike h]

theorem uncovered_alike : uncovered d (ls.map f) = uncovered d ls := by
  have columns : (ls.map f).map (callColumn? d) = ls.map (callColumn? d) := by
    rw [List.map_map]
    exact List.map_congr_left fun l hl => (h l hl).column
  rw [uncovered_eq, uncovered_eq, callsFrom_congr columns]
  simp only [isCovered, opener_congr (map_look_alike h)]

end

end CallGuard
