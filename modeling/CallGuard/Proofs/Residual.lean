import CallGuard.Coverage
import CallGuard.Proofs.Discreet
import CallGuard.Proofs.Prefixes
set_option autoImplicit false

/-!
# What remains uncovered

Covered is a call with an open marker of its own within the window above it. A block covers its
lines up to the window below its first line, and for all other lines its guard is invisible, since
it is complete. So guarding leaves the uncovered calls it does not reach, each moved with its line.
-/
namespace CallGuard

variable {d : Dialect} {ls : List Line} {bs : List Block} {i n s e : Nat}

/-! ## Coverage -/

theorem isCovered_eq (ls : List Line) (i : Nat) :
    isCovered d ls i = hasOpener d false d.window 0 (linesAbove ls i) := rfl

section
variable (hm : ∀ j, s ≤ j → j ≤ e → d.isMarker (lineAt ls j) = false)
include hm

theorem unmarked_between {j : Nat} (h : j ≤ e + 1) :
    ∀ l ∈ (between ls s j).reverse, d.isMarker l = false := by
  intro l hl
  obtain ⟨k, h1, h2, rfl⟩ := mem_between (List.mem_reverse.1 hl)
  exact hm k h1 (by omega)

theorem unmarked_between_breakAt {j : Nat} (h : j ≤ e + 1) :
    ∀ l ∈ (between (breakAt s e ls) s j).reverse, d.isMarker l = false :=
  unmarked_between (fun k h1 h2 => by rw [isMarker_breakAt]; exact hm k h1 h2) h

/-- In the span the search from a line far from its beginning finds nothing without the guard. -/
theorem le_of_isCovered (he : e < ls.length) (h1 : s ≤ i) (h2 : i ≤ e)
    (h : isCovered d ls i) : i ≤ s + d.window := by
  have above : linesAbove ls i = (between ls s i).reverse ++ (ls.take s).reverse := by
    rw [linesAbove_eq (by omega), take_eq_append_between ls h1, List.reverse_append]
  rw [isCovered_eq, above, hasOpener_append_unmarked (unmarked_between hm (by omega)),
    List.length_reverse, length_between _ _ (by omega)] at h
  simp only [Bool.and_eq_true, decide_eq_true_eq] at h
  omega

variable (hd : d.Unbroken) (hs : s ≤ e) (he : e < ls.length)
include hd hs he

/-- The search from a line of the span meets the new open marker, if its budget lasts. -/
theorem isCovered_enclose_inside (h1 : s ≤ i) (h2 : i ≤ e) :
    isCovered d (enclose d s e ls) (i + 1) = decide (i ≤ s + d.window) := by
  have opens := opensGuard_openingText d (lineAt ls s)
  have len := hd.length_enclose hs he
  have above : linesAbove (enclose d s e ls) (i + 1) =
      (between (breakAt s e ls) s i).reverse ++ (openingText d (lineAt ls s) :: (ls.take s).reverse) := by
    rw [linesAbove_eq (by omega), take_enclose_inside hd hs he h1 (by omega)]
    simp
  rw [isCovered_eq, above, hasOpener_append_unmarked (unmarked_between_breakAt hm (by omega)),
    hasOpener_opens_zero opens, List.length_reverse, length_between _ _ (by rw [breakAt_length]; omega)]
  simp only [Bool.false_and, Bool.not_false, Bool.and_true]
  exact decide_eq_decide.2 (by omega)

variable (hx : d.Exclusive)
include hx

/-- The search from a line below steps over the new guard. -/
theorem isCovered_enclose_below (h : e < i) (hi : i ≤ ls.length) :
    isCovered d (enclose d s e ls) (i + 2) = isCovered d ls i := by
  have opens := opensGuard_openingText d (lineAt ls s)
  have closes := closesGuard_closingText d (lineAt ls s) (lineAt ls e)
  have looks : ((between (breakAt s e ls) s (e + 1)).reverse ++ (ls.take s).reverse).map d.look =
      ((between ls s (e + 1)).reverse ++ (ls.take s).reverse).map d.look := by
    simp only [List.map_append, List.map_reverse, map_look_between_breakAt]
  rw [isCovered_eq, isCovered_eq, linesAbove_enclose_below hd hs he h hi, linesAbove_around hs h hi]
  apply hasOpener_append_congr
  intro budget depth
  rw [hasOpener_across hx opens closes (unmarked_between_breakAt hm (Nat.le_refl _))]
  exact hasOpener_congr looks budget depth

/-- One span enclosed: its lines are covered down to the window, and for the others nothing
changes. -/
theorem isCovered_enclose (hi : i ≤ ls.length) :
    isCovered d (enclose d s e ls) (shiftLine 1 1 s e i) =
      (decide (s ≤ i ∧ i ≤ e ∧ i ≤ s + d.window) || isCovered d ls i) := by
  by_cases above : i < s
  · have len := hd.length_enclose hs he
    rw [shiftLine_above above, decide_eq_false (by omega), Bool.false_or, isCovered_eq,
      linesAbove_eq (by omega), enclose_take hs he (by omega), ← linesAbove_eq hi, isCovered_eq]
  · by_cases inside : i ≤ e
    · rw [shiftLine_inside (by omega) inside,
        isCovered_enclose_inside hm hd hs he (by omega) inside]
      have far := le_of_isCovered hm he (by omega : s ≤ i) inside
      by_cases near : i ≤ s + d.window
      · rw [decide_eq_true near, decide_eq_true ⟨by omega, inside, near⟩, Bool.true_or]
      · rw [decide_eq_false near, decide_eq_false (by omega), Bool.false_or]
        exact (Bool.eq_false_iff.2 fun h => near (far h)).symm
    · rw [shiftLine_below (by omega) (by omega), decide_eq_false (by omega), Bool.false_or,
        isCovered_enclose_below hm hd hs he hx (by omega) hi]

end

/-- The guarding reaches line `i`: it lies in a block, no farther from its first line than the
window. -/
def reached (d : Dialect) (bs : List Block) (i : Nat) : Bool :=
  bs.any fun b => decide (b.start ≤ i ∧ i ≤ b.last ∧ i ≤ b.start + d.window)

theorem movedLine_le_length (hd : d.Unbroken) (hl : Lined ls) (h : InOrder ls.length n bs)
    (hi : i ≤ ls.length) : movedLine bs i ≤ (encloseAll d ls bs).length := by
  have len := (filter_encloseAll hd.openMarker hd.closeMarker hd.closeMarker_ne_nil hl h).2
  have first := List.countP_le_length (p := fun b : Block => decide (b.start ≤ i)) (l := bs)
  have last := List.countP_le_length (p := fun b : Block => decide (b.last < i)) (l := bs)
  unfold movedLine
  omega

/-- All blocks enclosed: the lines that the guarding reaches are covered, and for the others nothing
changes. -/
theorem isCovered_encloseAll (hd : d.Unbroken) (hx : d.Exclusive) (hl : Lined ls)
    (h : InOrder ls.length n bs)
    (hm : ∀ b ∈ bs, ∀ j, b.start ≤ j → j ≤ b.last → d.isMarker (lineAt ls j) = false)
    (hi : i ≤ ls.length) : isCovered d (encloseAll d ls bs) (movedLine bs i) =
      (reached d bs i || isCovered d ls i) := by
  induction bs generalizing n with
  | nil => rfl
  | cons b bs ih =>
    have above := (encloseAll_take (d := d) h.2.2.2).1
    have inside : ∀ j, b.start ≤ j → j ≤ b.last →
        d.isMarker (lineAt (encloseAll d ls bs) j) = false := by
      intro j h1 h2
      rw [lineAt_eq_of_take_eq above (by omega)]
      exact hm b List.mem_cons_self j h1 h2
    have here : decide (b.start ≤ movedLine bs i ∧ movedLine bs i ≤ b.last ∧
        movedLine bs i ≤ b.start + d.window) =
          decide (b.start ≤ i ∧ i ≤ b.last ∧ i ≤ b.start + d.window) := by
      apply decide_eq_decide.2
      by_cases hj : i ≤ b.last
      · rw [movedLine_of_le h hj]
      · have := le_movedLine bs i
        omega
    rw [encloseAll, movedLine_cons h, isCovered_enclose inside hd h.2.1
      (last_lt_encloseAll h) hx (movedLine_le_length hd hl h.2.2.2 hi), here,
      ih h.2.2.2 fun c hc => hm c (List.mem_cons_of_mem b hc), reached, reached, List.any_cons,
      Bool.or_assoc]

/-! ## Calls -/

def callsFrom (d : Dialect) (i : Nat) (ls : List Line) : List Uncovered :=
  (ls.zipIdx i).filterMap fun (l, j) => (callColumn? d l).map (Uncovered.mk j)

theorem uncovered_eq (d : Dialect) (ls : List Line) :
    uncovered d ls = (callsFrom d 0 ls).filter fun u => !isCovered d ls u.line := by
  rw [callsFrom, List.filter_filterMap]
  apply List.filterMap_congr
  rintro ⟨l, j⟩ _
  dsimp only
  cases callColumn? d l with
  | none => rfl
  | some column => cases hc : isCovered d ls j <;> simp [Option.filter_some, hc]

theorem callsFrom_append (ls ks : List Line) :
    callsFrom d i (ls ++ ks) = callsFrom d i ls ++ callsFrom d (i + ls.length) ks := by
  rw [callsFrom, List.zipIdx_append, List.filterMap_append]
  rfl

theorem callsFrom_cons_quiet {l : Line} (h : hasCall d l = false) :
    callsFrom d i (l :: ls) = callsFrom d (i + 1) ls := by
  have none : callColumn? d l = none := by
    rw [callColumn?_eq_map, Option.map_eq_none_iff]
    exact Option.isSome_eq_false_iff.1 h |> Option.isNone_iff_eq_none.1
  rw [callsFrom, List.zipIdx_cons, List.filterMap_cons_none (by simp [none])]
  rfl

def Uncovered.moved (f : Nat → Nat) (u : Uncovered) : Uncovered := ⟨f u.line, u.column⟩

/-- Moving all lines by the same number is counting them from elsewhere. -/
theorem map_moved_callsFrom {f : Nat → Nat} {k : Nat} (ls : List Line)
    (h : ∀ j, i ≤ j → j < i + ls.length → f j = j + k) :
    (callsFrom d i ls).map (Uncovered.moved f) = callsFrom d (i + k) ls := by
  induction ls generalizing i with
  | nil => rfl
  | cons l ls ih =>
    have here := h i (Nat.le_refl i) (by simp)
    have rest := ih (i := i + 1) fun j h1 h2 => h j (by omega) (by rw [List.length_cons]; omega)
    rw [← List.singleton_append, callsFrom_append, callsFrom_append, List.map_append, List.length_singleton,
      rest, Nat.add_right_comm]
    congr 1
    simp only [callsFrom, List.zipIdx_singleton]
    cases hc : callColumn? d l with
    | none => simp [hc]
    | some column => simp [hc, Uncovered.moved, here]

theorem callsFrom_congr {ls ks : List Line} (h : ls.map (callColumn? d) = ks.map (callColumn? d))
    (i : Nat) : callsFrom d i ls = callsFrom d i ks := by
  have columns (ms : List Line) : callsFrom d i ms =
      ((ms.map (callColumn? d)).zipIdx i).filterMap fun (c, j) => c.map (Uncovered.mk j) := by
    rw [List.zipIdx_map, List.filterMap_map]
    rfl
  rw [columns, columns, h]

theorem callColumn?_append_inert {v : Text} (ht : ∀ token ∈ d.callTokens, isIdentifier token)
    (hv : d.Inert v) (l : Line) : callColumn? d (l ++ v) = callColumn? d l := by
  rw [callColumn?_eq_map, callAt?_append_inert ht hv, callColumn?_eq_map]
  cases hc : callAt? d l with
  | none => rfl
  | some k =>
    have short : k < l.length := by
      have := callFrom_lt hc
      rwa [length_classify] at this
    rw [Option.map_some, Option.map_some, List.take_append_of_le_length short.le]

theorem callsFrom_breakAt (hd : d.BreakFree) (i : Nat) (ls : List Line) :
    callsFrom d i (breakAt s e ls) = callsFrom d i ls := by
  apply callsFrom_congr
  rw [breakAt, List.map_set, callColumn?_append_inert hd.tokens (hd.inert (isBreak_gap _ _))]
  by_cases he : e < ls.length
  · have bound : e < (ls.map (callColumn? d)).length := by simpa using he
    have here : (ls.map (callColumn? d))[e] = callColumn? d (lineAt ls e) := by
      rw [List.getElem_map, lineAt_eq_getElem he]
    rw [← here, List.set_getElem_self]
  · exact List.set_eq_of_length_le (by simpa using he)

/-- One span enclosed: the calls are the same, each moved with its line. -/
theorem callsFrom_enclose (hd : d.Neutral) (hs : s ≤ e) (he : e < ls.length) :
    callsFrom d 0 (enclose d s e ls) =
      (callsFrom d 0 ls).map (Uncovered.moved (shiftLine 1 1 s e)) := by
  have first := hd.unobtrusive.opening (lineAt ls s)
  have last := hd.unobtrusive.closing (lineAt ls s) (lineAt ls e)
  rw [hd.splitLines_opening] at first
  rw [hd.splitLines_closing] at last
  have len := length_between_breakAt (s := s) he
  have above : (ls.take s).length = s := List.length_take_of_le (by omega)
  have old : callsFrom d 0 ls = callsFrom d 0 (ls.take s) ++
      (callsFrom d s (between (breakAt s e ls) s (e + 1)) ++ callsFrom d (e + 1) (ls.drop (e + 1))) := by
    have split : callsFrom d 0 (breakAt s e ls) = _ := congrArg (callsFrom d 0) (breakAt_eq hs)
    rwa [callsFrom_breakAt hd.breakFree, callsFrom_append, callsFrom_append, above, len, Nat.zero_add,
      show s + (e + 1 - s) = e + 1 by omega] at split
  have up : (callsFrom d 0 (ls.take s)).map (Uncovered.moved (shiftLine 1 1 s e)) =
      callsFrom d 0 (ls.take s) :=
    map_moved_callsFrom (k := 0) _ fun j _ h => shiftLine_above (by omega)
  have inside : (callsFrom d s (between (breakAt s e ls) s (e + 1))).map
      (Uncovered.moved (shiftLine 1 1 s e)) =
        callsFrom d (s + 1) (between (breakAt s e ls) s (e + 1)) :=
    map_moved_callsFrom _ fun j h1 h2 => shiftLine_inside h1 (by omega)
  have down : (callsFrom d (e + 1) (ls.drop (e + 1))).map (Uncovered.moved (shiftLine 1 1 s e)) =
      callsFrom d (e + 1 + 2) (ls.drop (e + 1)) :=
    map_moved_callsFrom _ fun j h _ => shiftLine_below (by omega) (by omega)
  rw [enclose_cut hd.unbroken hs, callsFrom_append,
    callsFrom_cons_quiet (first _ (List.mem_singleton_self _)).noCall, callsFrom_append,
    callsFrom_cons_quiet (last _ (List.mem_singleton_self _)).noCall, above, len, old, List.map_append,
    List.map_append, up, inside, down, Nat.zero_add, show s + 1 + (e + 1 - s) + 1 = e + 1 + 2 by omega]

theorem callsFrom_encloseAll (hd : d.Neutral) (h : InOrder ls.length n bs) :
    callsFrom d 0 (encloseAll d ls bs) =
      (callsFrom d 0 ls).map (Uncovered.moved (movedLine bs)) := by
  induction bs generalizing n with
  | nil => exact (List.map_id _).symm
  | cons b bs ih =>
    rw [encloseAll, callsFrom_enclose hd h.2.1 (last_lt_encloseAll h), ih h.2.2.2, List.map_map]
    apply List.map_congr_left
    intro u _
    rw [Uncovered.moved, movedLine_cons h]
    rfl

theorem mem_callsFrom {u : Uncovered} (h : u ∈ callsFrom d 0 ls) :
    u.line < ls.length ∧ hasCall d (lineAt ls u.line) := by
  obtain ⟨⟨l, j⟩, hl, hu⟩ := List.mem_filterMap.1 h
  obtain ⟨column, hc, rfl⟩ := Option.map_eq_some_iff.1 hu
  obtain ⟨-, hj, hl⟩ := List.mem_zipIdx hl
  have lt : j < ls.length := by omega
  have at' : lineAt ls j = l := by
    rw [lineAt_eq_getElem lt, hl]
    rfl
  rw [callColumn?_eq_map] at hc
  obtain ⟨k, hk, -⟩ := Option.map_eq_some_iff.1 hc
  refine ⟨lt, ?_⟩
  change hasCall d (lineAt ls j)
  rw [at', hasCall, hk]
  rfl

/-! ## Statements -/

/-- A search that ends at no declaration finds no less. -/
theorem hasOpener_of_stops {budget depth : Nat} {above : List Line}
    (h : hasOpener d true budget depth above) : hasOpener d false budget depth above := by
  induction above generalizing budget depth with
  | nil => exact h
  | cons l above ih =>
    cases ho : d.opensGuard l with
    | true =>
      cases depth with
      | zero => exact hasOpener_opens_zero ho
      | succ depth =>
        rw [hasOpener_opens_succ ho] at h ⊢
        exact ih h
    | false =>
      cases hc : d.closesGuard l with
      | true =>
        rw [hasOpener_closes ho hc] at h ⊢
        exact ih h
      | false =>
        have plain : ∀ m ∈ [l], d.isMarker m = false := by simp [Dialect.isMarker, ho, hc]
        rw [← List.singleton_append, hasOpener_append_unmarked plain] at h ⊢
        simp only [Bool.and_eq_true] at h ⊢
        exact ⟨⟨h.1.1, rfl⟩, ih h.2⟩

/-- The first line of each statement is covered, or it gets a block. -/
theorem isCovered_of_statement {st : Span} (h : st ∈ statements d ls) :
    isCovered d ls st.start ∨ ∃ b ∈ blocks d ls, b.start = st.start := by
  cases hf : framed d ls st with
  | false => exact Or.inr ((exists_block_iff h).2 hf)
  | true =>
    rw [framed, Bool.and_eq_true] at hf
    exact Or.inl (hasOpener_of_stops hf.1)

/-- The call begins a statement, or the guarding reaches its line. -/
def relieved (d : Dialect) (ls : List Line) (u : Uncovered) : Bool :=
  (statements d ls).any (·.start == u.line) || reached d (blocks d ls) u.line

theorem reached_or_covered (d : Dialect) (ls : List Line) (u : Uncovered) :
    (reached d (blocks d ls) u.line || isCovered d ls u.line) =
      (relieved d ls u || isCovered d ls u.line) := by
  rw [relieved]
  cases hs : (statements d ls).any (·.start == u.line) with
  | false => rfl
  | true =>
    obtain ⟨st, hst, e⟩ := List.any_eq_true.1 hs
    have e : st.start = u.line := by simpa using e
    rcases isCovered_of_statement hst with hc | ⟨b, hb, hbs⟩
    · rw [← e, hc, Bool.or_true, Bool.or_true]
    · have here : reached d (blocks d ls) u.line := by
        refine List.any_eq_true.2 ⟨b, hb, decide_eq_true ?_⟩
        have := (blocks_bounds hb).1
        omega
      rw [here]
      rfl

/-- When no statement has a marker inside it, guarding leaves uncovered just the uncovered calls
that neither begin a statement nor lie in a block within the window of its first line, each on the
line that its own has become. So no statement is left, and what was covered stays covered. A text
without markers keeps no uncovered call when the window reaches the last line of each statement. -/
theorem uncovered_guardText (hd : d.Neutral) (t : Text)
    (hm : ∀ st ∈ statements d (splitLines t), ∀ j, st.start ≤ j → j ≤ st.last →
      d.isMarker (lineAt (splitLines t) j) = false) :
    let ls := splitLines t
    let g := guardText d t
    let out := splitLines g.output
    uncovered d out = ((uncovered d ls).filter (!relieved d ls ·)).map
      (Uncovered.moved (movedLine g.blocks)) ∧
    (∀ st ∈ statements d ls, ∀ u ∈ uncovered d out, u.line ≠ movedLine g.blocks st.start) ∧
    (∀ i < ls.length, isCovered d ls i → isCovered d out (movedLine g.blocks i)) ∧
    (Fresh d t → (∀ st ∈ statements d ls, st.last ≤ st.start + d.window) →
      uncovered d out = []) := by
  intro ls g out
  have lined : Lined ls := lined_splitLines t
  have order : InOrder ls.length 0 g.blocks := blocks_inOrder d ls
  have lines : out = encloseAll d ls g.blocks := splitLines_guardCalls_output lined
  have unmarked : ∀ b ∈ g.blocks, ∀ j, b.start ≤ j → j ≤ b.last →
      d.isMarker (lineAt ls j) = false :=
    fun b hb => hm ⟨b.start, b.last⟩ (block_mem_statements hb)
  have covered {i : Nat} (hi : i ≤ ls.length) : isCovered d out (movedLine g.blocks i) =
      (reached d g.blocks i || isCovered d ls i) := by
    rw [lines]
    exact isCovered_encloseAll hd.unbroken hd.exclusive lined order unmarked hi
  have residual : uncovered d out = ((uncovered d ls).filter (!relieved d ls ·)).map
      (Uncovered.moved (movedLine g.blocks)) := by
    have calls : callsFrom d 0 out = (callsFrom d 0 ls).map (Uncovered.moved (movedLine g.blocks)) := by
      rw [lines]
      exact callsFrom_encloseAll hd order
    rw [uncovered_eq, uncovered_eq, calls, List.filter_map, List.filter_filter]
    congr 1
    apply List.filter_congr
    intro u hu
    have either := reached_or_covered d ls u
    change (!isCovered d out (movedLine g.blocks u.line)) = _
    rw [covered (mem_callsFrom hu).1.le]
    change (!(reached d (blocks d ls) u.line || isCovered d ls u.line)) = _
    rw [either, Bool.not_or]
  refine ⟨residual, ?_, ?_, ?_⟩
  · intro st hst u hu
    rw [residual] at hu
    obtain ⟨v, hv, rfl⟩ := List.mem_map.1 hu
    have left : relieved d ls v = false := by simpa using (List.mem_filter.1 hv).2
    intro e
    have same : st.start = v.line := (movedLine_inj order e).symm
    have begins : (statements d ls).any (·.start == v.line) :=
      List.any_eq_true.2 ⟨st, hst, by simpa using same⟩
    rw [relieved, begins] at left
    cases left
  · intro i hi hc
    rw [covered hi.le, hc, Bool.or_true]
  · intro hf near
    rw [residual, List.map_eq_nil_iff, List.filter_eq_nil_iff]
    intro u hu
    rw [uncovered_eq] at hu
    obtain ⟨st, hst, h1, h2⟩ := exists_statement_around (mem_callsFrom (List.mem_filter.1 hu).1).2
    have near := near st hst
    rw [blocks_of_fresh hf] at hst
    obtain ⟨b, hb, rfl⟩ := List.mem_map.1 hst
    have here : reached d (blocks d ls) u.line :=
      List.any_eq_true.2 ⟨b, hb, decide_eq_true ⟨h1, h2, Nat.le_trans h2 near⟩⟩
    rw [relieved, here, Bool.or_true]
    decide

/-- A statement with further calls on its eleventh and twelfth lines. -/
def longText : Text :=
  "#if DEBUG\nprint(0)\n#endif\nprint(\n1,\n2,\n3,\n4,\n5,\n6,\n7,\n8,\n9,\nprint(10),\nprint(11))".toList

theorem uncovered_guardText_longText :
    (∀ st ∈ statements .swift (splitLines longText), ∀ j < st.last + 1, st.start ≤ j →
      Dialect.swift.isMarker (lineAt (splitLines longText) j) = false) ∧
    uncovered .swift (splitLines longText) = [⟨3, 0⟩, ⟨13, 0⟩, ⟨14, 0⟩] ∧
    uncovered .swift (splitLines (guardText .swift longText).output) = [⟨15, 0⟩] := by
  have spans : ∀ st ∈ statements .swift (splitLines longText), ∀ j < st.last + 1, st.start ≤ j →
      Dialect.swift.isMarker (lineAt (splitLines longText) j) = false := by
    decide +kernel
  obtain ⟨residual, -⟩ := uncovered_guardText Dialect.swift_neutral longText
    fun st hst j h1 h2 => spans st hst j (Nat.lt_succ_of_le h2) h1
  refine ⟨spans, by decide +kernel, ?_⟩
  rw [residual]
  decide +kernel

end CallGuard
