import CallGuard.Proofs.Neutral
set_option autoImplicit false

/-!
# Searches for markers

Whether a search finds its marker depends on how each line looks to it, and a complete guard around
lines that are no markers is stepped over without cost. So a new guard is invisible to the other
statements, and the statement inside it is guarded.
-/
namespace CallGuard

variable {d : Dialect}

def hasOpener (d : Dialect) (stops : Bool) (budget depth : Nat) (above : List Line) : Bool :=
  (openerAbove d stops budget depth above).toBool

def hasCloser (d : Dialect) (budget depth : Nat) (below : List Line) : Bool :=
  (closerBelow d budget depth 0 below).isSome

def Dialect.look (d : Dialect) (l : Line) : Bool × Bool × Bool :=
  (d.opensGuard l, d.closesGuard l, d.isDeclaration l)

/-! ## One line of a search -/

section
variable {stops : Bool} {budget depth : Nat} {l : Line} {ls : List Line}

section
variable (ho : d.opensGuard l)
include ho

theorem openerAbove_opens_zero : openerAbove d stops budget 0 (l :: ls) = .ok ls.length := by
  simp [openerAbove, ho]

theorem openerAbove_opens_succ :
    openerAbove d stops budget (depth + 1) (l :: ls) = openerAbove d stops budget depth ls := by
  simp [openerAbove, ho]

theorem closerBelow_opens (hc : d.closesGuard l = false) (i : Nat) :
    closerBelow d budget depth i (l :: ls) = closerBelow d budget (depth + 1) (i + 1) ls := by
  simp [closerBelow, ho, hc]

end

section
variable (hc : d.closesGuard l)
include hc

theorem openerAbove_closes (ho : d.opensGuard l = false) :
    openerAbove d stops budget depth (l :: ls) = openerAbove d stops budget (depth + 1) ls := by
  simp [openerAbove, ho, hc]

theorem closerBelow_closes_zero (i : Nat) : closerBelow d budget 0 i (l :: ls) = some i := by
  simp [closerBelow, hc]

theorem closerBelow_closes_succ (i : Nat) : closerBelow d budget (depth + 1) i (l :: ls) =
    closerBelow d budget depth (i + 1) ls := by
  simp [closerBelow, hc]

end

/-- From where a search downwards counts does not matter to what it comes upon. -/
theorem closerBelow_add (budget depth i k : Nat) (ls : List Line) :
    closerBelow d budget depth (i + k) ls = (closerBelow d budget depth i ls).map (· + k) := by
  induction ls generalizing budget depth i with
  | nil => rfl
  | cons l ls ih =>
    have tail := fun budget depth => ih budget depth (i + 1)
    simp only [Nat.add_right_comm i 1 k] at tail
    simp only [closerBelow]
    split
    · cases depth with
      | zero => rfl
      | succ depth => exact tail budget depth
    · split
      · exact tail budget (depth + 1)
      · cases budget with
        | zero => rfl
        | succ budget => exact tail budget depth

theorem isSome_closerBelow (budget depth i : Nat) (below : List Line) :
    (closerBelow d budget depth i below).isSome = hasCloser d budget depth below := by
  have moved := closerBelow_add (d := d) budget depth 0 i below
  rw [Nat.zero_add] at moved
  rw [moved, Option.isSome_map, hasCloser]

theorem hasOpener_opens_zero (h : d.opensGuard l) : hasOpener d stops budget 0 (l :: ls) = true :=
  congrArg Except.toBool (openerAbove_opens_zero h)

theorem hasOpener_opens_succ (h : d.opensGuard l) :
    hasOpener d stops budget (depth + 1) (l :: ls) = hasOpener d stops budget depth ls :=
  congrArg Except.toBool (openerAbove_opens_succ h)

theorem hasOpener_closes (ho : d.opensGuard l = false) (h : d.closesGuard l) :
    hasOpener d stops budget depth (l :: ls) = hasOpener d stops budget (depth + 1) ls :=
  congrArg Except.toBool (openerAbove_closes h ho)

theorem hasCloser_closes_zero (h : d.closesGuard l) : hasCloser d budget 0 (l :: ls) = true :=
  congrArg Option.isSome (closerBelow_closes_zero h 0)

theorem hasCloser_closes_succ (h : d.closesGuard l) :
    hasCloser d budget (depth + 1) (l :: ls) = hasCloser d budget depth ls := by
  rw [hasCloser, closerBelow_closes_succ h, isSome_closerBelow]

theorem hasCloser_opens (hc : d.closesGuard l = false) (h : d.opensGuard l) :
    hasCloser d budget depth (l :: ls) = hasCloser d budget (depth + 1) ls := by
  rw [hasCloser, closerBelow_opens h hc, isSome_closerBelow]

theorem hasOpener_cons_congr {ks : List Line}
    (h : ∀ budget depth, hasOpener d stops budget depth ls = hasOpener d stops budget depth ks)
    (budget depth : Nat) :
    hasOpener d stops budget depth (l :: ls) = hasOpener d stops budget depth (l :: ks) := by
  simp only [hasOpener] at h ⊢
  simp only [openerAbove]
  split
  · cases depth with
    | zero => rfl
    | succ depth => exact h budget depth
  · split
    · exact h budget (depth + 1)
    · cases budget with
      | zero => rfl
      | succ budget =>
        dsimp only
        split
        · rfl
        · exact h budget depth

theorem hasCloser_cons_congr {ks : List Line}
    (h : ∀ budget depth, hasCloser d budget depth ls = hasCloser d budget depth ks)
    (budget depth : Nat) :
    hasCloser d budget depth (l :: ls) = hasCloser d budget depth (l :: ks) := by
  unfold hasCloser
  simp only [closerBelow]
  split
  · cases depth with
    | zero => rfl
    | succ depth => rw [isSome_closerBelow, isSome_closerBelow, h]
  · split
    · rw [isSome_closerBelow, isSome_closerBelow, h]
    · cases budget with
      | zero => rfl
      | succ budget =>
        dsimp only
        rw [isSome_closerBelow, isSome_closerBelow, h]

end

/-! ## Stretches of lines -/

theorem hasOpener_append_congr {stops : Bool} {ls ks : List Line} (xs : List Line)
    (h : ∀ budget depth, hasOpener d stops budget depth ls = hasOpener d stops budget depth ks)
    (budget depth : Nat) :
    hasOpener d stops budget depth (xs ++ ls) = hasOpener d stops budget depth (xs ++ ks) := by
  induction xs generalizing budget depth with
  | nil => exact h budget depth
  | cons x xs ih => exact hasOpener_cons_congr ih budget depth

theorem hasCloser_append_congr {ls ks : List Line} (xs : List Line)
    (h : ∀ budget depth, hasCloser d budget depth ls = hasCloser d budget depth ks)
    (budget depth : Nat) :
    hasCloser d budget depth (xs ++ ls) = hasCloser d budget depth (xs ++ ks) := by
  induction xs generalizing budget depth with
  | nil => exact h budget depth
  | cons x xs ih => exact hasCloser_cons_congr ih budget depth

/-- A search goes by the looks of the lines. -/
theorem openerAbove_congr {stops : Bool} {ls ks : List Line} (h : ls.map d.look = ks.map d.look)
    (budget depth : Nat) :
    openerAbove d stops budget depth ls = openerAbove d stops budget depth ks := by
  induction ls generalizing ks budget depth with
  | nil =>
    obtain rfl := List.map_eq_nil_iff.1 h.symm
    rfl
  | cons l ls ih =>
    obtain ⟨k, ks, rfl, hk, hks⟩ := List.map_eq_cons_iff.1 h.symm
    have len : ls.length = ks.length := by simpa using (congrArg List.length hks).symm
    simp only [Dialect.look, Prod.mk.injEq] at hk
    obtain ⟨ho, hc, hdecl⟩ := hk
    simp only [openerAbove, ho, hc, hdecl, len, ih hks.symm]

theorem closerBelow_congr {ls ks : List Line} (h : ls.map d.look = ks.map d.look)
    (budget depth i : Nat) :
    closerBelow d budget depth i ls = closerBelow d budget depth i ks := by
  induction ls generalizing ks budget depth i with
  | nil =>
    obtain rfl := List.map_eq_nil_iff.1 h.symm
    rfl
  | cons l ls ih =>
    obtain ⟨k, ks, rfl, hk, hks⟩ := List.map_eq_cons_iff.1 h.symm
    simp only [Dialect.look, Prod.mk.injEq] at hk
    obtain ⟨ho, hc, -⟩ := hk
    simp only [closerBelow, ho, hc, ih hks.symm]

theorem hasOpener_congr {stops : Bool} {ls ks : List Line} (h : ls.map d.look = ks.map d.look)
    (budget depth : Nat) :
    hasOpener d stops budget depth ls = hasOpener d stops budget depth ks :=
  congrArg Except.toBool (openerAbove_congr h budget depth)

theorem hasCloser_congr {ls ks : List Line} (h : ls.map d.look = ks.map d.look)
    (budget depth : Nat) : hasCloser d budget depth ls = hasCloser d budget depth ks :=
  congrArg Option.isSome (closerBelow_congr h budget depth 0)

section
variable {ms : List Line} (hm : ∀ m ∈ ms, d.isMarker m = false)
include hm

/-- Lines that are no markers cost their number, and none of them may be a stop. -/
theorem hasOpener_append_unmarked (stops : Bool) (budget depth : Nat) (above : List Line) :
    hasOpener d stops budget depth (ms ++ above) = (decide (ms.length ≤ budget) &&
      !(stops && ms.any d.isDeclaration) &&
        hasOpener d stops (budget - ms.length) depth above) := by
  induction ms generalizing budget with
  | nil => simp
  | cons m ms ih =>
    have tail := fun b => ih (fun k hk => hm k (List.mem_cons_of_mem m hk)) b
    obtain ⟨h1, h2⟩ := Bool.or_eq_false_iff.1 (hm m List.mem_cons_self)
    simp only [hasOpener] at tail ⊢
    simp only [List.cons_append, openerAbove, h1, h2]
    cases budget with
    | zero => simp [Except.toBool]
    | succ budget =>
      simp only [Bool.false_eq_true, if_false, List.length_cons, Nat.add_le_add_iff_right,
        Nat.add_sub_add_right, List.any_cons]
      cases hdecl : stops && d.isDeclaration m with
      | true => simp_all [Except.toBool]
      | false =>
        rw [if_neg Bool.false_ne_true, tail budget, Bool.and_or_distrib_left, hdecl, Bool.false_or]

theorem closerBelow_append_unmarked (budget depth i : Nat) (ls : List Line) : closerBelow d budget depth i (ms ++ ls) =
      if ms.length ≤ budget then closerBelow d (budget - ms.length) depth (i + ms.length) ls
      else none := by
  induction ms generalizing budget i with
  | nil => simp
  | cons m ms ih =>
    have tail := fun budget => ih (fun k hk => hm k (List.mem_cons_of_mem m hk)) budget (i + 1)
    obtain ⟨h1, h2⟩ := Bool.or_eq_false_iff.1 (hm m List.mem_cons_self)
    simp only [List.cons_append, closerBelow, h1, h2, Bool.false_eq_true, if_false]
    cases budget with
    | zero => simp
    | succ budget =>
      simp only [tail, List.length_cons, Nat.add_le_add_iff_right, Nat.add_sub_add_right]
      rw [Nat.add_right_comm, Nat.add_assoc]

theorem hasCloser_append_unmarked (budget depth : Nat) (below : List Line) :
    hasCloser d budget depth (ms ++ below) =
      (decide (ms.length ≤ budget) && hasCloser d (budget - ms.length) depth below) := by
  rw [hasCloser, closerBelow_append_unmarked hm]
  split
  · rename_i near
    rw [isSome_closerBelow, decide_eq_true near, Bool.true_and]
  · rename_i far
    rw [decide_eq_false far, Bool.false_and]
    rfl

end

section
variable (hx : d.Exclusive) {o c : Line} (ho : d.opensGuard o) (hc : d.closesGuard c)
  {ms : List Line} (hm : ∀ m ∈ ms, d.isMarker m = false)
include hx ho hc hm

/-- Upwards a complete guard costs what the lines inside it cost. -/
theorem hasOpener_across (stops : Bool) (budget depth : Nat) (above : List Line) :
    hasOpener d stops budget depth (c :: (ms ++ o :: above)) =
      hasOpener d stops budget depth (ms ++ above) := by
  rw [hasOpener_closes (hx.closes hc) hc, hasOpener_append_unmarked hm, hasOpener_opens_succ ho,
    hasOpener_append_unmarked hm]

/-- Downwards as well. -/
theorem hasCloser_across (budget depth : Nat) (below : List Line) :
    hasCloser d budget depth (o :: (ms ++ c :: below)) = hasCloser d budget depth (ms ++ below) := by
  rw [hasCloser_opens (hx o ho) ho, hasCloser_append_unmarked hm, hasCloser_closes_succ hc,
    hasCloser_append_unmarked hm]

end

/-! ## Statements between markers -/

/-- The searches from a statement find a marker on either side. -/
def framed (d : Dialect) (ls : List Line) (st : Span) : Bool :=
  hasOpener d true d.window 0 (linesAbove ls st.start) &&
    hasCloser d d.window 0 (ls.drop (st.last + 1))

theorem verdict_guarded_iff {ls : List Line} {st : Span} (h : st ∈ statements d ls) :
    (∃ above below, verdict d ls st.start = .guarded above below) ↔ framed d ls st := by
  have hl := (mem_statements h).2.2
  have hc : hasCloser d d.window 0 (ls.drop (st.last + 1)) = (closer? d ls st.last).isSome :=
    (isSome_closerBelow d.window 0 (st.last + 1) _).symm
  unfold verdict framed hasOpener
  rw [hc, ← hl]
  change _ ↔ (Except.toBool (opener d true ls st.start) && _) = true
  cases opener d true ls st.start with
  | error r => simp [Except.toBool]
  | ok above =>
    cases closer? d ls st.last with
    | none => simp
    | some below => simp [Except.toBool]

theorem exists_block_iff {ls : List Line} {st : Span} (h : st ∈ statements d ls) :
    (∃ b ∈ blocks d ls, b.start = st.start) ↔ framed d ls st = false := by
  rw [← Bool.not_eq_true, ← verdict_guarded_iff h]
  constructor
  · rintro ⟨b, hb, hs⟩ ⟨i, j, hv⟩
    obtain ⟨st', -, r, hr, rfl⟩ := mem_blocks.1 hb
    have hs : st'.start = st.start := hs
    rw [hs, hv] at hr
    cases hr
  · intro hn
    cases hv : verdict d ls st.start with
    | guarded i j => exact absurd ⟨i, j, hv⟩ hn
    | unguarded r => exact ⟨_, mem_blocks.2 ⟨st, h, r, hv, rfl⟩, rfl⟩

def Verdict.isGuarded : Verdict → Bool
  | .guarded _ _ => true
  | .unguarded _ => false

theorem isGuarded_verdict {ls : List Line} {st : Span} (h : st ∈ statements d ls) :
    (verdict d ls st.start).isGuarded = framed d ls st := by
  rw [Bool.eq_iff_iff, ← verdict_guarded_iff h]
  cases verdict d ls st.start <;> simp [Verdict.isGuarded]

def Block.span (b : Block) : Span := ⟨b.start, b.last⟩

theorem map_span_blocks (d : Dialect) (ls : List Line) : (blocks d ls).map Block.span =
    (statements d ls).filter fun st => !(verdict d ls st.start).isGuarded := by
  rw [blocks, List.map_filterMap, ← List.filterMap_eq_filter]
  apply List.filterMap_congr
  intro st _
  cases hv : verdict d ls st.start with
  | guarded i j => simp [block?, Option.guard, hv, Verdict.isGuarded]
  | unguarded r => simp [block?, Option.guard, hv, Verdict.isGuarded, Block.span]

theorem map_span_blocks_framed (d : Dialect) (ls : List Line) :
    (blocks d ls).map Block.span = (statements d ls).filter fun st => !framed d ls st := by
  rw [map_span_blocks]
  apply List.filter_congr
  intro st hst
  rw [isGuarded_verdict hst]

theorem blocks_eq_nil {ls : List Line} (h : ∀ st ∈ statements d ls, framed d ls st) :
    blocks d ls = [] := by
  rw [← List.map_eq_nil_iff, map_span_blocks_framed, List.filter_eq_nil_iff]
  intro st hst
  simp [h st hst]

theorem opener_congr {ls ks : List Line} (h : ls.map d.look = ks.map d.look) (stops : Bool) (i : Nat) :
    opener d stops ls i = opener d stops ks i := by
  have len : ls.length = ks.length := by simpa using congrArg List.length h
  apply openerAbove_congr
  unfold linesAbove
  rw [len]
  split
  · rw [List.map_reverse, List.map_reverse, List.map_take, List.map_take, h]
  · rfl

theorem closer?_congr {ls ks : List Line} (h : ls.map d.look = ks.map d.look) (last : Nat) :
    closer? d ls last = closer? d ks last := by
  apply closerBelow_congr
  rw [List.map_drop, List.map_drop, h]

theorem framed_congr {ls ks : List Line} (h : ls.map d.look = ks.map d.look) (st : Span) :
    framed d ls st = framed d ks st := by
  have above := congrArg Except.toBool (opener_congr h true st.start)
  have below : (ls.drop (st.last + 1)).map d.look = (ks.drop (st.last + 1)).map d.look := by
    rw [List.map_drop, List.map_drop, h]
  rw [framed, hasCloser_congr below, framed]
  exact congrArg (· && _) above

theorem look_append_blank {v : Text} (hv : ∀ c ∈ v, isBlank c) (l : Line) :
    d.look (l ++ v) = d.look l := by
  rw [Dialect.look, opensGuard_append_blank d hv, closesGuard_append_blank d hv,
    isDeclaration_append_blank d hv, Dialect.look]

theorem linesAbove_eq {ls : List Line} {i : Nat} (h : i ≤ ls.length) :
    linesAbove ls i = (ls.take i).reverse := if_pos h

section
variable {as ms bs : List Line} {o c : Line}

/-- A guard put around lines that are no markers does not change whether a statement above or below
them stands between markers. -/
theorem framed_insert (hx : d.Exclusive) (ho : d.opensGuard o) (hc : d.closesGuard c)
    (hm : ∀ m ∈ ms, d.isMarker m = false) {st : Span} (hle : st.start ≤ st.last)
    (hlt : st.last < (as ++ (ms ++ bs)).length)
    (h : st.last < as.length ∨ as.length + ms.length ≤ st.start) :
    framed d (as ++ (o :: (ms ++ c :: bs)))
      (if st.last < as.length then st else ⟨st.start + 2, st.last + 2⟩) =
        framed d (as ++ (ms ++ bs)) st := by
  simp only [List.length_append] at hlt
  split
  · rename_i hlast
    have same (ks : List Line) : linesAbove (as ++ ks) st.start = (as.take st.start).reverse := by
      rw [linesAbove_eq (by simp only [List.length_append]; omega),
        List.take_append_of_le_length (by omega)]
    unfold framed
    rw [same, same, List.drop_append_of_le_length (by omega), List.drop_append_of_le_length (by omega)]
    congr 1
    exact hasCloser_append_congr _ (fun b n => hasCloser_across hx ho hc hm b n bs) _ _
  · rename_i hlast
    obtain ⟨j, hj⟩ := Nat.exists_eq_add_of_le (h.resolve_left hlast)
    have before : linesAbove (as ++ (ms ++ bs)) st.start =
        (bs.take j).reverse ++ (ms.reverse ++ as.reverse) := by
      rw [linesAbove_eq (by simp only [List.length_append]; omega), hj, Nat.add_assoc,
        List.take_length_add_append, List.take_length_add_append, List.reverse_append,
        List.reverse_append, List.append_assoc]
    have after : linesAbove (as ++ (o :: (ms ++ c :: bs))) (st.start + 2) =
        (bs.take j).reverse ++ (c :: (ms.reverse ++ o :: as.reverse)) := by
      rw [linesAbove_eq (by simp only [List.length_append, List.length_cons]; omega), hj,
        show as.length + ms.length + j + 2 = as.length + (ms.length + (j + 1) + 1) by omega,
        List.take_length_add_append, List.take_succ_cons, List.take_length_add_append,
        List.take_succ_cons]
      simp
    have drops : (as ++ (o :: (ms ++ c :: bs))).drop (st.last + 2 + 1) =
        (as ++ (ms ++ bs)).drop (st.last + 1) := by
      obtain ⟨k, hk⟩ := Nat.exists_eq_add_of_le (show as.length + ms.length ≤ st.last + 1 by omega)
      rw [show st.last + 2 + 1 = as.length + (ms.length + (k + 1) + 1) by omega, hk,
        List.drop_length_add_append, List.drop_succ_cons, List.drop_length_add_append,
        List.drop_succ_cons, Nat.add_assoc, List.drop_length_add_append, List.drop_length_add_append]
    unfold framed
    rw [before, after, drops]
    congr 1
    exact hasOpener_append_congr _ (fun b n => hasOpener_across hx ho hc
      (fun m hmem => hm m (List.mem_reverse.1 hmem)) true b n as.reverse) _ _

theorem framed_inside (ho : d.opensGuard o) (hc : d.closesGuard c) {st : Span}
    (hs : st.start = as.length + 1) (he : st.last = as.length + ms.length) :
    framed d (as ++ (o :: (ms ++ c :: bs))) st = true := by
  have above : linesAbove (as ++ (o :: (ms ++ c :: bs))) st.start = o :: as.reverse := by
    rw [linesAbove_eq (by simp only [List.length_append, List.length_cons]; omega), hs,
      List.take_length_add_append]
    simp
  have below : (as ++ (o :: (ms ++ c :: bs))).drop (st.last + 1) = c :: bs := by
    rw [he, Nat.add_assoc, List.drop_length_add_append, List.drop_succ_cons, List.drop_left]
  rw [framed, above, below, hasOpener_opens_zero ho, hasCloser_closes_zero hc]
  rfl

end

end CallGuard
