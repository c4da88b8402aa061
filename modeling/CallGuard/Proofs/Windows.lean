import CallGuard.Proofs.Search
set_option autoImplicit false

/-!
# What the searches for markers find

A search crosses lines while the markers it looks for have counterparts that it met before, while the
lines that are no markers are within its budget, and while none of these halts it. What it comes
upon after the lines it crosses decides its answer. Said of the lines of a text, this tells between
which markers a statement stands, or why it stands between none.
-/
namespace CallGuard

structure Passed (d : Dialect) (target counterpart halts : Line → Bool) (m : Line)
    (budget depth budget' depth' : Nat) : Prop where
  level : depth' + (if target m then 1 else 0) = depth + if counterpart m then 1 else 0
  cost : budget' + (if unmarked d m then 1 else 0) = budget
  clear : unmarked d m → halts m = false

/-- A search for `target` lines crosses the lines `ms`, the nearest first: each target among them has
its counterpart before it or takes from the depth, the lines that are no markers are within the
budget, and none of these halts the search. -/
structure Crossed (d : Dialect) (target counterpart halts : Line → Bool) (budget depth : Nat)
    (ms : List Line) : Prop where
  level : ∀ p, p <+: ms → p.countP target ≤ p.countP counterpart + depth
  near : ms.countP (unmarked d) ≤ budget
  clear : ∀ m ∈ ms, unmarked d m → halts m = false

def halting (d : Dialect) (stops : Bool) (m : Line) : Bool := stops && d.isDeclaration m

/-- The line does not open and close at once. -/
def Plainly (d : Dialect) (m : Line) : Prop := d.opensGuard m → d.closesGuard m = false

variable {d : Dialect} {target counterpart halts : Line → Bool} {stops : Bool}
  {budget budget' depth depth' i j : Nat} {m : Line} {ms near far above below ls : List Line}

theorem unmarked_eq (d : Dialect) (m : Line) :
    unmarked d m = (!d.opensGuard m && !d.closesGuard m) :=
  Bool.not_or ..

theorem Crossed.nil : Crossed d target counterpart halts budget depth [] where
  level p hp := by simp [List.prefix_nil.1 hp]
  near := Nat.zero_le _
  clear := by simp

theorem Crossed.cons (h : Passed d target counterpart halts m budget depth budget' depth')
    (hms : Crossed d target counterpart halts budget' depth' ms) :
    Crossed d target counterpart halts budget depth (m :: ms) := by
  obtain ⟨level, cost, clear⟩ := h
  refine ⟨fun p hp => ?_, ?_, fun k hk => ?_⟩
  · cases p with
    | nil => simp
    | cons k p =>
      obtain ⟨rfl, hp'⟩ := List.cons_prefix_cons.1 hp
      have := hms.level p hp'
      simp only [List.countP_cons]
      omega
  · have := hms.near
    simp only [List.countP_cons]
    omega
  · rcases List.mem_cons.1 hk with rfl | hk
    · exact clear
    · exact hms.clear k hk

theorem Crossed.uncons (h : Crossed d target counterpart halts budget depth (m :: ms)) :
    ∃ budget' depth', Passed d target counterpart halts m budget depth budget' depth' ∧
      Crossed d target counterpart halts budget' depth' ms := by
  obtain ⟨level, near, clear⟩ := h
  -- the first line alone is a stretch to which the bound applies
  have first := level [m] (by simp)
  simp only [List.countP_cons, List.countP_nil] at first near
  refine ⟨budget - if unmarked d m then 1 else 0,
    depth + (if counterpart m then 1 else 0) - if target m then 1 else 0,
    ⟨by omega, by omega, clear m List.mem_cons_self⟩, ⟨fun p hp => ?_, by omega, fun k hk =>
      clear k (List.mem_cons_of_mem m hk)⟩⟩
  have := level (m :: p) ((List.prefix_cons_inj m).2 hp)
  simp only [List.countP_cons] at this
  omega

theorem exists_passed (d : Dialect) (target counterpart halts : Line → Bool) (m : Line)
    (budget depth : Nat) :
    (∃ budget' depth', Passed d target counterpart halts m budget depth budget' depth') ∨
      (target m ∧ depth = 0) ∨ (unmarked d m ∧ (budget = 0 ∨ halts m)) := by
  by_cases ht : target m ∧ depth = 0
  · exact Or.inr (Or.inl ht)
  · by_cases hu : unmarked d m ∧ (budget = 0 ∨ halts m)
    · exact Or.inr (Or.inr hu)
    · have deep : (if target m then 1 else 0) ≤ depth := by
        by_cases h : target m
        · have : depth ≠ 0 := fun h0 => ht ⟨h, h0⟩
          rw [if_pos h]
          omega
        · rw [if_neg h]
          exact Nat.zero_le _
      have rich : (if unmarked d m then 1 else 0) ≤ budget := by
        by_cases h : unmarked d m
        · have : budget ≠ 0 := fun h0 => hu ⟨h, Or.inl h0⟩
          rw [if_pos h]
          omega
        · rw [if_neg h]
          exact Nat.zero_le _
      refine Or.inl ⟨budget - if unmarked d m then 1 else 0,
        depth + (if counterpart m then 1 else 0) - if target m then 1 else 0, by omega, by omega, ?_⟩
      exact fun hm => Bool.eq_false_iff.2 fun h => hu ⟨hm, Or.inr h⟩

/-! ## A line that is no marker -/

section
variable (hm : unmarked d m)
include hm

theorem openerAbove_unmarked_zero :
    openerAbove d stops 0 depth (m :: ms) = .error .noOpen := by
  simp only [unmarked_eq, Bool.and_eq_true, Bool.not_eq_true'] at hm
  simp [openerAbove, hm]

theorem openerAbove_unmarked_succ : openerAbove d stops (budget + 1) depth (m :: ms) =
    if halting d stops m then .error (.declaration ms.length)
    else openerAbove d stops budget depth ms := by
  simp only [unmarked_eq, Bool.and_eq_true, Bool.not_eq_true'] at hm
  simp [openerAbove, hm, halting]

theorem closerBelow_unmarked_zero (i : Nat) : closerBelow d 0 depth i (m :: ms) = none := by
  simp only [unmarked_eq, Bool.and_eq_true, Bool.not_eq_true'] at hm
  simp [closerBelow, hm]

theorem closerBelow_unmarked_succ (i : Nat) : closerBelow d (budget + 1) depth i (m :: ms) =
    closerBelow d budget depth (i + 1) ms := by
  simp only [unmarked_eq, Bool.and_eq_true, Bool.not_eq_true'] at hm
  simp [closerBelow, hm]

end

/-! ## Upwards -/

abbrev CrossedUp (d : Dialect) (stops : Bool) : (budget depth : Nat) → List Line → Prop :=
  Crossed d d.opensGuard d.closesGuard (halting d stops)

theorem openerAbove_passed (hx : Plainly d m)
    (h : Passed d d.opensGuard d.closesGuard (halting d stops) m budget depth budget' depth') :
    openerAbove d stops budget depth (m :: ms) = openerAbove d stops budget' depth' ms := by
  obtain ⟨level, cost, clear⟩ := h
  cases ho : d.opensGuard m with
  | true =>
    have hc := hx ho
    have hu : unmarked d m = false := by simp [unmarked_eq, ho]
    simp only [ho, hc, hu, Bool.false_eq_true, if_true, if_false, Nat.add_zero] at level cost
    rw [← level, ← cost, openerAbove_opens_succ ho]
  | false =>
    cases hc : d.closesGuard m with
    | true =>
      have hu : unmarked d m = false := by simp [unmarked_eq, hc]
      simp only [ho, hc, hu, Bool.false_eq_true, if_true, if_false, Nat.add_zero] at level cost
      rw [level, ← cost, openerAbove_closes hc ho]
    | false =>
      have hu : unmarked d m := by simp [unmarked_eq, ho, hc]
      simp only [ho, hc, hu, Bool.false_eq_true, if_true, if_false, Nat.add_zero] at level cost
      rw [level, ← cost, openerAbove_unmarked_succ hu]
      exact if_neg (Bool.eq_false_iff.1 (clear hu))

inductive Meets (d : Dialect) (stops : Bool) (budget depth : Nat) (above : List Line) :
    Except Reason Nat → Prop where
  | opener {near far : List Line} {o : Line} (cut : above = near ++ o :: far)
      (crossed : CrossedUp d stops budget depth near) (opens : d.opensGuard o)
      (even : near.countP d.opensGuard = near.countP d.closesGuard + depth) :
      Meets d stops budget depth above (.ok far.length)
  | declaration {near far : List Line} {k : Line} (cut : above = near ++ k :: far)
      (crossed : CrossedUp d stops budget depth near) (plain : unmarked d k)
      (halts : halting d stops k) (left : near.countP (unmarked d) < budget) :
      Meets d stops budget depth above (.error (.declaration far.length))

theorem Meets.cons {r : Except Reason Nat}
    (h : Passed d d.opensGuard d.closesGuard (halting d stops) m budget depth budget' depth')
    (hr : Meets d stops budget' depth' above r) : Meets d stops budget depth (m :: above) r := by
  have level := h.level
  have cost := h.cost
  cases hr with
  | opener cut crossed opens even =>
    refine .opener (by rw [cut, List.cons_append]) (.cons h crossed) opens ?_
    simp only [List.countP_cons]
    omega
  | declaration cut crossed plain halts left =>
    refine .declaration (by rw [cut, List.cons_append]) (.cons h crossed) plain halts ?_
    simp only [List.countP_cons]
    omega

theorem openerAbove_append (hx : ∀ m ∈ near, Plainly d m)
    (h : CrossedUp d stops budget depth near) :
    openerAbove d stops budget depth (near ++ far) = openerAbove d stops
      (budget - near.countP (unmarked d))
      (depth + near.countP d.closesGuard - near.countP d.opensGuard) far := by
  induction near generalizing budget depth with
  | nil => rfl
  | cons m near ih =>
    obtain ⟨hm, hx⟩ := List.forall_mem_cons.1 hx
    obtain ⟨budget', depth', passed, rest⟩ := h.uncons
    have level := passed.level
    have cost := passed.cost
    rw [List.cons_append, openerAbove_passed hm passed, ih hx rest]
    simp only [List.countP_cons]
    congr 1 <;> omega

theorem openerAbove_of_meets {r : Except Reason Nat} (hx : ∀ m ∈ above, Plainly d m)
    (h : Meets d stops budget depth above r) : openerAbove d stops budget depth above = r := by
  cases h with
  | opener cut crossed opens even =>
    subst cut
    rw [openerAbove_append (fun m hm => hx m (List.mem_append_left _ hm)) crossed, even,
      Nat.add_comm depth, Nat.sub_self, openerAbove_opens_zero opens]
  | @declaration near _ _ cut crossed plain halts left =>
    subst cut
    obtain ⟨rest, hrest⟩ := Nat.exists_eq_add_of_lt left
    rw [openerAbove_append (fun m hm => hx m (List.mem_append_left _ hm)) crossed,
      show budget - near.countP (unmarked d) = rest + 1 by omega,
      openerAbove_unmarked_succ plain, if_pos halts]

theorem meets_openerAbove (hx : ∀ m ∈ above, Plainly d m) :
    openerAbove d stops budget depth above = .error .noOpen ∨
      Meets d stops budget depth above (openerAbove d stops budget depth above) := by
  induction above generalizing budget depth with
  | nil => exact Or.inl rfl
  | cons m above ih =>
    obtain ⟨hm, hx⟩ := List.forall_mem_cons.1 hx
    rcases exists_passed d d.opensGuard d.closesGuard (halting d stops) m budget depth with
      ⟨budget', depth', passed⟩ | ⟨ho, rfl⟩ | ⟨hu, stop⟩
    · rw [openerAbove_passed hm passed]
      exact (ih hx).imp_right (.cons passed)
    · rw [openerAbove_opens_zero ho]
      exact Or.inr (.opener rfl .nil ho rfl)
    · cases budget with
      | zero => exact Or.inl (openerAbove_unmarked_zero hu)
      | succ budget =>
        have halts : halting d stops m := stop.resolve_left (Nat.succ_ne_zero _)
        rw [openerAbove_unmarked_succ hu, if_pos halts]
        exact Or.inr (.declaration rfl .nil hu halts (Nat.succ_pos _))

/-- The answer of a search upwards, if it is not empty, is what the search comes upon. -/
theorem openerAbove_eq_iff {r : Except Reason Nat} (hx : ∀ m ∈ above, Plainly d m)
    (hr : r ≠ .error .noOpen) :
    openerAbove d stops budget depth above = r ↔ Meets d stops budget depth above r := by
  constructor
  · rintro rfl
    exact (meets_openerAbove hx).resolve_left hr
  · exact openerAbove_of_meets hx

/-! ## Downwards -/

abbrev CrossedDown (d : Dialect) : (budget depth : Nat) → List Line → Prop :=
  Crossed d d.closesGuard d.opensGuard fun _ => false

theorem closerBelow_passed (hx : Plainly d m)
    (h : Passed d d.closesGuard d.opensGuard (fun _ => false) m budget depth budget' depth')
    (i : Nat) : closerBelow d budget depth i (m :: ms) = closerBelow d budget' depth' (i + 1) ms := by
  obtain ⟨level, cost, -⟩ := h
  cases ho : d.opensGuard m with
  | true =>
    have hc := hx ho
    have hu : unmarked d m = false := by simp [unmarked_eq, ho]
    simp only [ho, hc, hu, Bool.false_eq_true, if_true, if_false, Nat.add_zero] at level cost
    rw [level, ← cost, closerBelow_opens ho hc]
  | false =>
    cases hc : d.closesGuard m with
    | true =>
      have hu : unmarked d m = false := by simp [unmarked_eq, hc]
      simp only [ho, hc, hu, Bool.false_eq_true, if_true, if_false, Nat.add_zero] at level cost
      rw [← level, ← cost, closerBelow_closes_succ hc]
    | false =>
      have hu : unmarked d m := by simp [unmarked_eq, ho, hc]
      simp only [ho, hc, hu, Bool.false_eq_true, if_true, if_false, Nat.add_zero] at level cost
      rw [level, ← cost, closerBelow_unmarked_succ hu]

theorem closerBelow_append (hx : ∀ m ∈ near, Plainly d m) (h : CrossedDown d budget depth near)
    (i : Nat) : closerBelow d budget depth i (near ++ far) = closerBelow d
      (budget - near.countP (unmarked d))
      (depth + near.countP d.opensGuard - near.countP d.closesGuard) (i + near.length) far := by
  induction near generalizing budget depth i with
  | nil => rfl
  | cons m near ih =>
    obtain ⟨hm, hx⟩ := List.forall_mem_cons.1 hx
    obtain ⟨budget', depth', passed, rest⟩ := h.uncons
    have level := passed.level
    have cost := passed.cost
    rw [List.cons_append, closerBelow_passed hm passed, ih hx rest]
    simp only [List.countP_cons, List.length_cons]
    congr 1 <;> omega

def MeetsCloser (d : Dialect) (budget depth i : Nat) (below : List Line) (j : Nat) : Prop :=
  ∃ near c far, below = near ++ c :: far ∧ j = i + near.length ∧
    CrossedDown d budget depth near ∧ d.closesGuard c ∧
      near.countP d.closesGuard = near.countP d.opensGuard + depth

theorem MeetsCloser.cons
    (h : Passed d d.closesGuard d.opensGuard (fun _ => false) m budget depth budget' depth')
    (hj : MeetsCloser d budget' depth' (i + 1) below j) :
    MeetsCloser d budget depth i (m :: below) j := by
  have level := h.level
  obtain ⟨near, c, far, rfl, rfl, crossed, closes, even⟩ := hj
  refine ⟨m :: near, c, far, rfl, ?_, .cons h crossed, closes, ?_⟩
  · rw [List.length_cons]
    omega
  · simp only [List.countP_cons]
    omega

theorem closerBelow_eq_some_iff (hx : ∀ m ∈ below, Plainly d m) :
    closerBelow d budget depth i below = some j ↔ MeetsCloser d budget depth i below j := by
  constructor
  · intro h
    -- on the lines, with the budget and the depth left after the ones crossed
    induction below generalizing budget depth i with
    | nil => simp [closerBelow] at h
    | cons m below ih =>
      obtain ⟨hm, hx⟩ := List.forall_mem_cons.1 hx
      rcases exists_passed d d.closesGuard d.opensGuard (fun _ => false) m budget depth with
        ⟨budget', depth', passed⟩ | ⟨hc, rfl⟩ | ⟨hu, stop⟩
      · rw [closerBelow_passed hm passed] at h
        exact .cons passed (ih hx h)
      · rw [closerBelow_closes_zero hc] at h
        cases h
        exact ⟨[], m, below, rfl, rfl, .nil, hc, rfl⟩
      · obtain rfl : budget = 0 := stop.resolve_right Bool.false_ne_true
        rw [closerBelow_unmarked_zero hu] at h
        cases h
  · rintro ⟨near, c, far, rfl, rfl, crossed, closes, even⟩
    rw [closerBelow_append (fun m hm => hx m (List.mem_append_left _ hm)) crossed, even,
      Nat.add_comm depth, Nat.sub_self, closerBelow_closes_zero closes]

/-! ## The lines of a text -/

/-- Line `a` is the open marker without a counterpart that a search from line `i` reaches: in the
lines between, open and close markers are equal in number, no stretch down to line `i` has more open
than close markers, at most `window` lines are no markers, and none of these is a declaration. -/
structure OpensAbove (d : Dialect) (ls : List Line) (i a : Nat) : Prop where
  above : a < i
  opens : d.opensGuard (lineAt ls a)
  even : (between ls (a + 1) i).countP d.opensGuard = (between ls (a + 1) i).countP d.closesGuard
  own : ∀ ms, ms <:+ between ls (a + 1) i → ms.countP d.opensGuard ≤ ms.countP d.closesGuard
  near : (between ls (a + 1) i).countP (unmarked d) ≤ d.window
  clear : ∀ m ∈ between ls (a + 1) i, unmarked d m → d.isDeclaration m = false

/-- Line `k` is the nearest declaration above line `i`, fewer than `window` lines between are no
markers, and no open marker between is without a counterpart. -/
structure DeclaresAbove (d : Dialect) (ls : List Line) (i k : Nat) : Prop where
  above : k < i
  plain : unmarked d (lineAt ls k)
  declares : d.isDeclaration (lineAt ls k)
  nearest : ∀ m ∈ between ls (k + 1) i, unmarked d m → d.isDeclaration m = false
  near : (between ls (k + 1) i).countP (unmarked d) < d.window
  own : ∀ ms, ms <:+ between ls (k + 1) i → ms.countP d.opensGuard ≤ ms.countP d.closesGuard

/-- Line `b` is the close marker without a counterpart that a search from below line `last` reaches. -/
structure ClosesBelow (d : Dialect) (ls : List Line) (last b : Nat) : Prop where
  below : last < b
  inText : b < ls.length
  closes : d.closesGuard (lineAt ls b)
  even : (between ls (last + 1) b).countP d.opensGuard =
    (between ls (last + 1) b).countP d.closesGuard
  own : ∀ ms, ms <+: between ls (last + 1) b → ms.countP d.closesGuard ≤ ms.countP d.opensGuard
  near : (between ls (last + 1) b).countP (unmarked d) ≤ d.window

section
variable {a k last b : Nat}

theorem linesAbove_cut (h : a < i) (hi : i ≤ ls.length) : linesAbove ls i =
    (between ls (a + 1) i).reverse ++ lineAt ls a :: (ls.take a).reverse := by
  rw [linesAbove, if_pos hi, take_eq_append_between ls h.le, between_cons h hi]
  simp

theorem cut_linesAbove {o : Line} (hi : i ≤ ls.length) (cut : linesAbove ls i = near ++ o :: far) :
    far.length < i ∧ near = (between ls (far.length + 1) i).reverse ∧ o = lineAt ls far.length := by
  have len : i = near.length + (far.length + 1) := by
    have := congrArg List.length cut
    rwa [linesAbove, if_pos hi, List.length_reverse, List.length_take_of_le hi, List.length_append,
      List.length_cons] at this
  have same := linesAbove_cut (a := far.length) (by omega) hi
  rw [cut] at same
  obtain ⟨hn, ho⟩ := List.append_inj' same
    (by rw [List.length_cons, List.length_cons, List.length_reverse, List.length_take_of_le (by omega)])
  exact ⟨by omega, hn, (List.cons.inj ho).1⟩

theorem drop_cut (h : last < b) (hb : b < ls.length) : ls.drop (last + 1) =
    between ls (last + 1) b ++ lineAt ls b :: ls.drop (b + 1) := by
  rw [drop_eq_between_append h, List.drop_eq_getElem_cons hb, lineAt_eq_getElem hb]

theorem cut_drop {c : Line} (cut : ls.drop (last + 1) = near ++ c :: far) :
    last + 1 + near.length < ls.length ∧ near = between ls (last + 1) (last + 1 + near.length) ∧
      c = lineAt ls (last + 1 + near.length) := by
  have len : ls.length - (last + 1) = near.length + (far.length + 1) := by
    have := congrArg List.length cut
    rwa [List.length_drop, List.length_append, List.length_cons] at this
  have lt : last < last + 1 + near.length := by omega
  have inText : last + 1 + near.length < ls.length := by omega
  have same := drop_cut lt inText
  rw [cut] at same
  obtain ⟨hn, hc⟩ := List.append_inj same (by rw [length_between _ _ (by omega)]; omega)
  exact ⟨inText, hn, (List.cons.inj hc).1⟩

/-- Which lines a search upwards crosses, said from above. -/
theorem crossedUp_reverse_iff : CrossedUp d true budget 0 ms.reverse ↔
    (∀ p, p <:+ ms → p.countP d.opensGuard ≤ p.countP d.closesGuard) ∧
      ms.countP (unmarked d) ≤ budget ∧
        ∀ m ∈ ms, unmarked d m → d.isDeclaration m = false := by
  constructor
  · rintro ⟨level, near, clear⟩
    refine ⟨fun p hp => ?_, by simpa using near, fun m hm => clear m (List.mem_reverse.2 hm)⟩
    simpa using level p.reverse (List.reverse_prefix.2 hp)
  · rintro ⟨own, near, clear⟩
    refine ⟨fun p hp => ?_, by simpa using near, fun m hm => clear m (List.mem_reverse.1 hm)⟩
    have := own p.reverse (by rw [← List.reverse_prefix, List.reverse_reverse]; exact hp)
    simpa using this

theorem opener_eq_ok_iff (hx : ∀ m ∈ ls, Plainly d m) (hi : i ≤ ls.length) :
    opener d true ls i = .ok a ↔ OpensAbove d ls i a := by
  have above : ∀ m ∈ linesAbove ls i, Plainly d m := by
    intro m hm
    rw [linesAbove, if_pos hi] at hm
    exact hx m (List.mem_of_mem_take (List.mem_reverse.1 hm))
  rw [opener, openerAbove_eq_iff above (by simp)]
  constructor
  · intro h
    cases h with
    | opener cut crossed opens even =>
      obtain ⟨lt, rfl, rfl⟩ := cut_linesAbove hi cut
      obtain ⟨own, near, clear⟩ := crossedUp_reverse_iff.1 crossed
      exact ⟨lt, opens, by simpa using even, own, near, clear⟩
  · intro h
    have len : (ls.take a).reverse.length = a := by
      have := h.above
      rw [List.length_reverse, List.length_take_of_le (by omega)]
    have met : Meets d true d.window 0 (linesAbove ls i) (.ok (ls.take a).reverse.length) :=
      .opener (linesAbove_cut h.above hi) (crossedUp_reverse_iff.2 ⟨h.own, h.near, h.clear⟩) h.opens
        (by simpa using h.even)
    rwa [len] at met

theorem opener_eq_declaration_iff (hx : ∀ m ∈ ls, Plainly d m) (hi : i ≤ ls.length) :
    opener d true ls i = .error (.declaration k) ↔ DeclaresAbove d ls i k := by
  have above : ∀ m ∈ linesAbove ls i, Plainly d m := by
    intro m hm
    rw [linesAbove, if_pos hi] at hm
    exact hx m (List.mem_of_mem_take (List.mem_reverse.1 hm))
  rw [opener, openerAbove_eq_iff above (by simp)]
  constructor
  · intro h
    cases h with
    | declaration cut crossed plain halts left =>
      obtain ⟨lt, rfl, rfl⟩ := cut_linesAbove hi cut
      obtain ⟨own, -, clear⟩ := crossedUp_reverse_iff.1 crossed
      exact ⟨lt, plain, halts, clear, by simpa using left, own⟩
  · intro h
    have len : (ls.take k).reverse.length = k := by
      have := h.above
      rw [List.length_reverse, List.length_take_of_le (by omega)]
    have met : Meets d true d.window 0 (linesAbove ls i)
        (.error (.declaration (ls.take k).reverse.length)) :=
      .declaration (linesAbove_cut h.above hi)
        (crossedUp_reverse_iff.2 ⟨h.own, h.near.le, h.nearest⟩) h.plain h.declares
        (by simpa using h.near)
    rwa [len] at met

theorem opener_ne_noClose (hx : ∀ m ∈ ls, Plainly d m) (i : Nat) :
    opener d stops ls i ≠ .error .noClose := by
  intro h
  have above : ∀ m ∈ linesAbove ls i, Plainly d m := by
    intro m hm
    rw [linesAbove] at hm
    split at hm
    · exact hx m (List.mem_of_mem_take (List.mem_reverse.1 hm))
    · cases hm
  have met := (openerAbove_eq_iff above (by simp)).1 h
  cases met

theorem closer?_eq_some_iff (hx : ∀ m ∈ ls, Plainly d m) :
    closer? d ls last = some b ↔ ClosesBelow d ls last b := by
  rw [closer?, closerBelow_eq_some_iff fun m hm => hx m (List.mem_of_mem_drop hm)]
  constructor
  · rintro ⟨near, c, far, cut, rfl, crossed, closes, even⟩
    obtain ⟨lt, hn, rfl⟩ := cut_drop cut
    refine ⟨by omega, lt, closes, ?_, ?_, ?_⟩
    · rw [← hn]
      exact even.symm
    · rw [← hn]
      exact crossed.level
    · rw [← hn]
      exact crossed.near
  · intro h
    have below := h.below
    have inText := h.inText
    refine ⟨_, _, _, drop_cut h.below h.inText, ?_, ⟨h.own, h.near, by simp⟩, h.closes, h.even.symm⟩
    rw [length_between _ _ (by omega)]
    omega

/-- The verdict on a line tells between which markers the statement stands that begins there. If
there is no open marker, it tells the declaration that is in the way, or of none; if there is only an
open marker, it tells that the close marker is lacking. -/
theorem verdict_by_markers (hx : ∀ m ∈ ls, Plainly d m) (hi : i ≤ ls.length) :
    (∀ a b, verdict d ls i = .guarded a b ↔
      OpensAbove d ls i a ∧ ClosesBelow d ls (lastLine d ls i) b) ∧
    (∀ k, verdict d ls i = .unguarded (.declaration k) ↔ DeclaresAbove d ls i k) ∧
    (verdict d ls i = .unguarded .noOpen ↔
      (∀ a, ¬OpensAbove d ls i a) ∧ ∀ k, ¬DeclaresAbove d ls i k) ∧
    (verdict d ls i = .unguarded .noClose ↔
      (∃ a, OpensAbove d ls i a) ∧ ∀ b, ¬ClosesBelow d ls (lastLine d ls i) b) := by
  simp only [← opener_eq_ok_iff hx hi, ← opener_eq_declaration_iff hx hi, ← closer?_eq_some_iff hx]
  unfold verdict
  cases ho : opener d true ls i with
  | ok a =>
    cases hc : closer? d ls (lastLine d ls i) with
    | none => simp
    | some b => simp
  | error reason =>
    cases reason with
    | noOpen => simp
    | declaration k => simp
    | noClose => exact absurd ho (opener_ne_noClose hx i)

end

/-- A whole guard and a line stand between a call and the open marker, and a line above the close
marker. -/
def crowdedText : Text :=
  "#if DEBUG\nx\n#if DEBUG\n#endif\nprint(a)\ny\n#endif\nfunc f()\nprint(b)\n".toList

theorem verdict_by_markers_crowdedText :
    let d := { Dialect.swift with window := 1 }
    let ls := splitLines crowdedText
    OpensAbove d ls 4 0 ∧ ClosesBelow d ls 4 6 ∧ DeclaresAbove d ls 8 7 := by
  intro d ls
  have plain : ∀ m ∈ ls, Plainly d m := by
    unfold Plainly
    decide +kernel
  obtain ⟨guarded, -⟩ := verdict_by_markers plain (i := 4) (by decide +kernel)
  obtain ⟨-, barred, -⟩ := verdict_by_markers plain (i := 8) (by decide +kernel)
  have last : lastLine d ls 4 = 4 := by decide +kernel
  rw [last] at guarded
  obtain ⟨opens, closes⟩ := (guarded 0 6).1 (by decide +kernel)
  exact ⟨opens, closes, (barred 7).1 (by decide +kernel)⟩

end CallGuard
