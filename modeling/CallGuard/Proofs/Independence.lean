import CallGuard.Proofs.Residual
import CallGuard.Proofs.Windows
set_option autoImplicit false

/-!
# Verdicts beside a new guard

A guard put around one statement is complete, so the searches from the other statements step over
it: they come upon the same lines as before, and only the numbers of the lines have moved.
-/
namespace CallGuard

def Reason.moved (f : Nat → Nat) : Reason → Reason
  | .noOpen => .noOpen
  | .declaration line => .declaration (f line)
  | .noClose => .noClose

def Verdict.moved (f : Nat → Nat) : Verdict → Verdict
  | .guarded opener closer => .guarded (f opener) (f closer)
  | .unguarded reason => .unguarded (reason.moved f)

def movedFind (f : Nat → Nat) : Except Reason Nat → Except Reason Nat
  | .ok i => .ok (f i)
  | .error reason => .error (reason.moved f)

variable {d : Dialect} {ls ks ms xs : List Line} {l o c : Line} {f g : Nat → Nat}
  {stops : Bool} {budget depth i last s e : Nat}

/-! ## Searches upwards -/

theorem openerAbove_cons_moved (len : f ls.length = ks.length)
    (h : ∀ budget depth, openerAbove d stops budget depth ks =
      movedFind f (openerAbove d stops budget depth ls)) (budget depth : Nat) :
    openerAbove d stops budget depth (l :: ks) =
      movedFind f (openerAbove d stops budget depth (l :: ls)) := by
  simp only [openerAbove]
  split
  · cases depth with
    | zero => rw [movedFind, len]
    | succ depth => exact h budget depth
  · split
    · exact h budget (depth + 1)
    · cases budget with
      | zero => rfl
      | succ budget =>
        dsimp only
        split
        · rw [movedFind, Reason.moved, len]
        · exact h budget depth

theorem openerAbove_append_moved (len : ∀ j, f (ls.length + j) = ks.length + j)
    (h : ∀ budget depth, openerAbove d stops budget depth ks =
      movedFind f (openerAbove d stops budget depth ls)) (xs : List Line) (budget depth : Nat) :
    openerAbove d stops budget depth (xs ++ ks) =
      movedFind f (openerAbove d stops budget depth (xs ++ ls)) := by
  induction xs generalizing budget depth with
  | nil => exact h budget depth
  | cons x xs ih =>
    refine openerAbove_cons_moved ?_ ih budget depth
    rw [List.length_append, List.length_append, Nat.add_comm, len, Nat.add_comm]

/-- A search comes upon lines of its list only. -/
theorem movedFind_openerAbove (h : ∀ j < ls.length, f j = j) (budget depth : Nat) :
    movedFind f (openerAbove d stops budget depth ls) = openerAbove d stops budget depth ls := by
  induction ls generalizing budget depth with
  | nil => rfl
  | cons l ls ih =>
    have below : ∀ budget depth, openerAbove d stops budget depth ls =
        movedFind f (openerAbove d stops budget depth ls) := fun budget depth =>
      (ih (fun j hj => h j (Nat.lt_succ_of_lt hj)) budget depth).symm
    exact (openerAbove_cons_moved (h ls.length (Nat.lt_succ_self _)) below budget depth).symm

/-- Inside a guard the search goes one deeper, and past its open marker it is where it would have
been without the guard. -/
theorem openerAbove_guarded (ho : d.opensGuard o) (hm : ∀ m ∈ ms, d.isMarker m = false)
    (up : ∀ j < ls.length, f j = j) (inside : ∀ j < ms.length, f (ls.length + j) = ls.length + j + 1)
    (budget depth : Nat) : openerAbove d stops budget (depth + 1) (ms ++ o :: ls) =
      movedFind f (openerAbove d stops budget depth (ms ++ ls)) := by
  induction ms generalizing budget with
  | nil =>
    rw [List.nil_append, List.nil_append, movedFind_openerAbove up, openerAbove_opens_succ ho]
  | cons m ms ih =>
    have tail := ih (fun k hk => hm k (List.mem_cons_of_mem m hk))
      fun j hj => inside j (Nat.lt_succ_of_lt hj)
    have plain : unmarked d m := by simp [unmarked, hm m List.mem_cons_self]
    have here : (ms ++ o :: ls).length = f (ms ++ ls).length := by
      have := inside ms.length (Nat.lt_succ_self _)
      simp only [List.length_append, List.length_cons]
      rw [Nat.add_comm ms.length ls.length, this]
      omega
    rw [List.cons_append, List.cons_append]
    cases budget with
    | zero =>
      rw [openerAbove_unmarked_zero plain, openerAbove_unmarked_zero plain]
      rfl
    | succ budget =>
      rw [openerAbove_unmarked_succ plain, openerAbove_unmarked_succ plain]
      split
      · rw [movedFind, Reason.moved, here]
      · exact tail budget

/-! ## Searches downwards -/

theorem le_of_closerBelow {j : Nat} (h : closerBelow d budget depth i ls = some j) : i ≤ j := by
  have moved := closerBelow_add (d := d) budget depth 0 i ls
  rw [Nat.zero_add, h] at moved
  obtain ⟨k, -, rfl⟩ := Option.map_eq_some_iff.1 moved.symm
  exact Nat.le_add_left i k

theorem map_closerBelow_congr (h : ∀ j, i ≤ j → f j = g j) (budget depth : Nat) (ls : List Line) :
    (closerBelow d budget depth i ls).map f = (closerBelow d budget depth i ls).map g :=
  Option.map_congr fun j hj => h j (le_of_closerBelow (Option.mem_def.1 hj))

theorem closerBelow_append_moved (stay : ∀ j < i + xs.length, f j = j)
    (h : ∀ budget depth, closerBelow d budget depth (i + xs.length) ks =
      (closerBelow d budget depth (i + xs.length) ls).map f) (budget depth : Nat) :
    closerBelow d budget depth i (xs ++ ks) = (closerBelow d budget depth i (xs ++ ls)).map f := by
  induction xs generalizing budget depth i with
  | nil => exact h budget depth
  | cons x xs ih =>
    have next : i + (x :: xs).length = i + 1 + xs.length := by
      rw [List.length_cons]
      omega
    rw [next] at stay h
    have tail := ih stay h
    have here : f i = i := stay i (by omega)
    simp only [List.cons_append, closerBelow]
    split
    · cases depth with
      | zero => exact congrArg some here.symm
      | succ depth => exact tail budget depth
    · split
      · exact tail budget (depth + 1)
      · cases budget with
        | zero => rfl
        | succ budget => exact tail budget depth

/-- The search steps over a guard, and its marker lines move what lies below. -/
theorem closerBelow_guarded (hx : d.Exclusive) (ho : d.opensGuard o) (hc : d.closesGuard c)
    (hm : ∀ m ∈ ms, d.isMarker m = false) (down : ∀ j, i + ms.length ≤ j → f j = j + 2)
    (budget depth : Nat) (ls : List Line) :
    closerBelow d budget depth i (o :: (ms ++ c :: ls)) =
      (closerBelow d budget depth i (ms ++ ls)).map f := by
  rw [closerBelow_opens ho (hx o ho), closerBelow_append_unmarked hm, closerBelow_append_unmarked hm]
  split
  · rw [closerBelow_closes_succ hc, map_closerBelow_congr down, ← closerBelow_add]
    congr 1
    omega
  · rfl

/-! ## One span enclosed -/

section
variable (hd : d.Unbroken) (hs : s ≤ e) (he : e < ls.length)
include hd hs he

theorem lastLine_enclose_below (h : e < i) :
    lastLine d (enclose d s e ls) (i + 2) = lastLine d ls i + 2 := by
  rw [lastLine_eq, drop_enclose hd hs he h, lastLine_eq]
  omega

theorem opener_enclose_above (h : i < s) : opener d stops (enclose d s e ls) i =
    movedFind (shiftLine 1 1 s e) (opener d stops ls i) := by
  have len := hd.length_enclose hs he
  have same : linesAbove (enclose d s e ls) i = linesAbove ls i := by
    rw [linesAbove_eq (by omega), linesAbove_eq (by omega), enclose_take hs he (by omega)]
  have short : (linesAbove ls i).length = i := by
    rw [linesAbove_eq (by omega), List.length_reverse, List.length_take_of_le (by omega)]
  rw [opener, opener, same]
  exact (movedFind_openerAbove (fun j hj => shiftLine_above (by omega)) _ _).symm

theorem closer_enclose_below (h : e < last) : closer? d (enclose d s e ls) (last + 2) =
    (closer? d ls last).map (shiftLine 1 1 s e) := by
  have far : ∀ j, last + 1 ≤ j → shiftLine 1 1 s e j = j + 2 := by
    intro j hj
    rw [shiftLine_below (by omega) (by omega)]
  have rest : (enclose d s e ls).drop (last + 2 + 1) = ls.drop (last + 1) :=
    drop_enclose hd hs he (by omega : e < last + 1)
  rw [closer?, closer?, rest, map_closerBelow_congr far, ← closerBelow_add]

variable (hx : d.Exclusive) (hm : ∀ j, s ≤ j → j ≤ e → d.isMarker (lineAt ls j) = false)
include hx hm

theorem opener_enclose_below (h : e < i) (hi : i ≤ ls.length) :
    opener d stops (enclose d s e ls) (i + 2) =
      movedFind (shiftLine 1 1 s e) (opener d stops ls i) := by
  have opens := opensGuard_openingText d (lineAt ls s)
  have closes := closesGuard_closingText d (lineAt ls s) (lineAt ls e)
  have up : (ls.take s).reverse.length = s := by
    rw [List.length_reverse, List.length_take_of_le (by omega)]
  have inner : (between (breakAt s e ls) s (e + 1)).reverse.length = e + 1 - s := by
    rw [List.length_reverse, length_between_breakAt he]
  -- the line break that an unterminated last line gets is nothing to the search
  have looks : ((between (breakAt s e ls) s (e + 1)).reverse ++ (ls.take s).reverse).map d.look =
      ((between ls s (e + 1)).reverse ++ (ls.take s).reverse).map d.look := by
    simp only [List.map_append, List.map_reverse, map_look_between_breakAt]
  have len : ((between ls s (e + 1)).reverse ++ (ls.take s).reverse).length = e + 1 := by
    rw [List.length_append, up, List.length_reverse, length_between _ _ (by omega)]
    omega
  rw [opener, opener, linesAbove_enclose_below hd hs he h hi, linesAbove_around hs h hi]
  refine openerAbove_append_moved (fun j => ?_) (fun budget depth => ?_) _ _ _
  · rw [len, shiftLine_below (by omega) (by omega)]
    simp only [List.length_append, List.length_cons, up, inner]
    omega
  · rw [← openerAbove_congr looks, openerAbove_closes closes (hx.closes closes)]
    refine openerAbove_guarded opens (unmarked_between_breakAt hm (Nat.le_refl _)) ?_ ?_ _ _
    · intro j hj
      exact shiftLine_above (by omega)
    · intro j hj
      rw [up, shiftLine_inside (by omega) (by omega)]

theorem closer_enclose_above (h : last < s) : closer? d (enclose d s e ls) last =
    (closer? d ls last).map (shiftLine 1 1 s e) := by
  have opens := opensGuard_openingText d (lineAt ls s)
  have closes := closesGuard_closingText d (lineAt ls s) (lineAt ls e)
  have unmarked : ∀ m ∈ between (breakAt s e ls) s (e + 1), d.isMarker m = false := by
    intro m hmem
    exact unmarked_between_breakAt hm (Nat.le_refl _) m (List.mem_reverse.2 hmem)
  have inner := length_between_breakAt (s := s) he
  have upto : (between ls (last + 1) s).length = s - (last + 1) := length_between _ _ (by omega)
  have new : (enclose d s e ls).drop (last + 1) = between ls (last + 1) s ++
      (openingText d (lineAt ls s) :: (between (breakAt s e ls) s (e + 1) ++
        closingText d (lineAt ls s) (lineAt ls e) :: ls.drop (e + 1))) := by
    rw [enclose_cut hd hs, List.drop_append_of_le_length
      (by rw [List.length_take_of_le (by omega)]; omega)]
    rfl
  -- the two texts cut alike: the lines between, those of the span, the lines below it
  have old : (ls.drop (last + 1)).map d.look = (between ls (last + 1) s ++
      (between (breakAt s e ls) s (e + 1) ++ ls.drop (e + 1))).map d.look := by
    rw [drop_eq_between_append (by omega : last + 1 ≤ s),
      drop_eq_between_append (by omega : s ≤ e + 1)]
    simp only [List.map_append, map_look_between_breakAt]
  rw [closer?, closer?, new, closerBelow_congr old]
  refine closerBelow_append_moved (fun j hj => shiftLine_above (by omega)) (fun budget depth => ?_) _ _
  refine closerBelow_guarded hx opens closes unmarked (fun j hj => ?_) _ _ _
  exact shiftLine_below (by omega) (by omega)

end

/-- A statement that does not reach the span ends where it did. -/
theorem lastLine_enclose_above (hd : d.Neutral) (hl : Lined ls) (hs : s ≤ e) (he : e < ls.length)
    (hc : hasCall d (lineAt ls i)) (h : lastLine d ls i < s) :
    lastLine d (enclose d s e ls) i = lastLine d ls i := by
  have quiet := hd.unobtrusive
  have hi : i < s := Nat.lt_of_le_of_lt (le_lastLine d _ i) h
  have old : extent d (ls.drop i) = extent d (lineAt ls i :: (between ls (i + 1) s ++
      (between (breakAt s e ls) s (e + 1) ++ ls.drop (e + 1)))) := by
    rw [extent, ← closing?_breakAt quiet.toBreakFree hl he hc (s := s), ← extent,
      breakAt_drop_eq (by omega) hs, between_cons hi (by omega), List.cons_append]
  have new : (enclose d s e ls).drop i = lineAt ls i :: (between ls (i + 1) s ++
      (splitLines (openingText d (lineAt ls s)) ++ (between (breakAt s e ls) s (e + 1) ++
        (splitLines (closingText d (lineAt ls s) (lineAt ls e)) ++ ls.drop (e + 1))))) := by
    rw [enclose_eq hs, List.drop_append_of_le_length
      (by rw [List.length_take_of_le (by omega)]; omega), ← List.cons_append,
      ← between_cons hi (by omega)]
    rfl
  have ended : ∀ m ∈ lineAt ls i :: between ls (i + 1) s, Ended m := by
    rw [← between_cons hi (by omega)]
    exact ended_between hl (by omega) i
  -- the statement ends before the guard begins
  have short : extent d (ls.drop i) ≤ (between ls (i + 1) s).length := by
    rw [lastLine_eq] at h
    rw [length_between _ _ (by omega)]
    omega
  rw [old] at short
  rw [lastLine_eq, lastLine_eq, old, new, extent_insert_around quiet.escape_ne quiet.token_ne_nil
    (fun m hm => ⟨splitLines_ended (openingText_getLast _) m hm, quiet.opening (lineAt ls s) m hm⟩)
    (quiet.closing (lineAt ls s) (lineAt ls e)) (lined_closing_append hl he (lineAt ls s))
    (ended_of_mem_breakAt hl hs he) hc ended short]

theorem verdict_moved {i' : Nat} (ho : opener d true ks i' = movedFind f (opener d true ls i))
    (hc : closer? d ks (lastLine d ks i') = (closer? d ls (lastLine d ls i)).map f) :
    verdict d ks i' = (verdict d ls i).moved f := by
  unfold verdict
  rw [ho, hc]
  cases opener d true ls i with
  | error reason => rfl
  | ok above =>
    cases closer? d ls (lastLine d ls i) with
    | none => rfl
    | some below => rfl

theorem verdict_enclose (hd : d.Neutral) (hl : Lined ls) (hs : s ≤ e) (he : e < ls.length)
    (hm : ∀ j, s ≤ j → j ≤ e → d.isMarker (lineAt ls j) = false)
    (hc : hasCall d (lineAt ls i)) (apart : e < i ∨ lastLine d ls i < s) :
    verdict d (enclose d s e ls) (shiftLine 1 1 s e i) =
      (verdict d ls i).moved (shiftLine 1 1 s e) := by
  have hi := lt_length_of_hasCall hc
  have hle : i ≤ lastLine d ls i := by
    rw [lastLine_eq]
    omega
  rcases apart with below | above
  · rw [shiftLine_below (by omega) below]
    refine verdict_moved (opener_enclose_below hd.unbroken hs he hd.exclusive hm below hi.le) ?_
    rw [lastLine_enclose_below hd.unbroken hs he below]
    exact closer_enclose_below hd.unbroken hs he (by omega)
  · rw [shiftLine_above (by omega)]
    refine verdict_moved (opener_enclose_above hd.unbroken hs he (by omega)) ?_
    rw [lastLine_enclose_above hd hl hs he hc above]
    exact closer_enclose_above hd.unbroken hs he hd.exclusive hm above

/-- A call outside the span is uncovered as before. -/
theorem mem_uncovered_enclose (hd : d.Neutral) (hs : s ≤ e) (he : e < ls.length)
    (hm : ∀ j, s ≤ j → j ≤ e → d.isMarker (lineAt ls j) = false) (hi : i ≤ ls.length)
    (apart : e < i ∨ i < s) (column : Nat) :
    ⟨shiftLine 1 1 s e i, column⟩ ∈ uncovered d (enclose d s e ls) ↔ ⟨i, column⟩ ∈ uncovered d ls := by
  have outside : decide (s ≤ i ∧ i ≤ e ∧ i ≤ s + d.window) = false := decide_eq_false (by omega)
  have calls : ⟨shiftLine 1 1 s e i, column⟩ ∈ callsFrom d 0 (enclose d s e ls) ↔
      ⟨i, column⟩ ∈ callsFrom d 0 ls := by
    rw [callsFrom_enclose hd hs he, List.mem_map]
    constructor
    · rintro ⟨u, hu, h⟩
      obtain ⟨line, rfl⟩ := Uncovered.mk.inj h
      have same : u.line = i := by
        rcases Nat.lt_trichotomy u.line i with hlt | heq | hlt
        · have := shiftLine_lt (p := 1) (q := 1) hs hlt
          omega
        · exact heq
        · have := shiftLine_lt (p := 1) (q := 1) hs hlt
          omega
      rwa [← same]
    · exact fun h => ⟨_, h, rfl⟩
  rw [uncovered_eq, uncovered_eq, List.mem_filter, List.mem_filter, calls,
    isCovered_enclose hm hd.unbroken hs he hd.exclusive hi, outside, Bool.false_or]

/-- A guard around one statement without markers leaves the verdict on every other call that lies
below the statement or whose own statement ends above it: the same verdict, each line in it where
the guard has moved it. And such a call is uncovered just when it was before. -/
theorem enclosing_keeps_verdicts (hd : d.Neutral) (t : Text) (b : Block)
    (hb : hasCall d (lineAt (splitLines t) b.start))
    (hlast : b.last = lastLine d (splitLines t) b.start)
    (hm : ∀ j, b.start ≤ j → j ≤ b.last → d.isMarker (lineAt (splitLines t) j) = false)
    (hc : hasCall d (lineAt (splitLines t) i))
    (apart : b.last < i ∨ lastLine d (splitLines t) i < b.start) :
    let ls := splitLines t
    let ks := splitLines (insertPieces d ls [b])
    let shift := shiftLine 1 1 b.start b.last
    verdict d ks (shift i) = (verdict d ls i).moved shift ∧
      ∀ column, ⟨shift i, column⟩ ∈ uncovered d ks ↔ ⟨i, column⟩ ∈ uncovered d ls := by
  intro ls ks shift
  have lined : Lined ls := lined_splitLines t
  have hs : b.start ≤ b.last := by
    rw [hlast, lastLine_eq]
    omega
  have he : b.last < ls.length := by
    rw [hlast]
    exact lastLine_lt (lt_length_of_hasCall hb)
  have lines : ks = enclose d b.start b.last ls :=
    splitLines_insertPieces lined ⟨Nat.zero_le _, hs, he, trivial⟩
  have hle : i ≤ lastLine d ls i := by
    rw [lastLine_eq]
    omega
  rw [lines]
  exact ⟨verdict_enclose hd lined hs he hm hc apart,
    mem_uncovered_enclose hd hs he hm (lt_length_of_hasCall hc).le (apart.imp_right hle.trans_lt)⟩

/-- Two calls in one guard, and one below a declaration. -/
def sharedText : Text := "#if DEBUG\nprint(a)\nprint(b)\n#endif\nfunc f()\nprint(c)\n".toList

theorem enclosing_keeps_verdicts_sharedText :
    let ls := splitLines sharedText
    let ks := splitLines (insertPieces .swift ls [⟨1, 1, 0, .noOpen⟩])
    (verdict .swift ls 2 = .guarded 0 3 ∧ verdict .swift ks 4 = .guarded 0 5) ∧
      (verdict .swift ls 5 = .unguarded (.declaration 4) ∧
        verdict .swift ks 7 = .unguarded (.declaration 6)) ∧
      (⟨5, 0⟩ ∈ uncovered .swift ls ∧ ⟨7, 0⟩ ∈ uncovered .swift ks) := by
  intro ls ks
  have unmarked : ∀ j, 1 ≤ j → j ≤ 1 → Dialect.swift.isMarker (lineAt ls j) = false := by
    intro j h1 h2
    obtain rfl := Nat.le_antisymm h2 h1
    decide +kernel
  have keeps (i : Nat) (hc : hasCall .swift (lineAt ls i)) (below : 1 < i) :=
    enclosing_keeps_verdicts Dialect.swift_neutral sharedText ⟨1, 1, 0, .noOpen⟩ (by decide +kernel)
      (by decide +kernel) unmarked hc (Or.inl below)
  obtain ⟨inside, -⟩ := keeps 2 (by decide +kernel) (by decide)
  obtain ⟨beside, reported⟩ := keeps 5 (by decide +kernel) (by decide)
  have shared : verdict .swift ls 2 = .guarded 0 3 := by decide +kernel
  have barred : verdict .swift ls 5 = .unguarded (.declaration 4) := by decide +kernel
  have bare : ⟨5, 0⟩ ∈ uncovered .swift ls := by decide +kernel
  rw [shared] at inside
  rw [barred] at beside
  exact ⟨⟨shared, inside⟩, ⟨barred, beside⟩, bare, (reported 0).2 bare⟩

end CallGuard
