import CallGuard.Proofs.Breaks
set_option autoImplicit false

/-!
# Statements under insertion

Quiet lines put around a statement move the statements and change nothing else about them.
-/
namespace CallGuard

/-- Where a line goes when `p` lines are put before line `s` and `q` lines after line `e`. -/
def shiftLine (p q s e i : Nat) : Nat := if i < s then i else if i ≤ e then i + p else i + p + q

def Span.shift (p q s e : Nat) (st : Span) : Span :=
  ⟨shiftLine p q s e st.start, shiftLine p q s e st.last⟩

section
variable {p q s e i : Nat}

theorem shiftLine_above (h : i < s) : shiftLine p q s e i = i := if_pos h

theorem shiftLine_inside (hs : s ≤ i) (he : i ≤ e) : shiftLine p q s e i = i + p := by
  rw [shiftLine, if_neg (by omega), if_pos he]

theorem shiftLine_below (hs : s ≤ i) (he : e < i) : shiftLine p q s e i = i + p + q := by
  rw [shiftLine, if_neg (by omega), if_neg (by omega)]

end

variable {d : Dialect}

theorem statementsFrom_quiet {ps : List Line} (hp : ∀ l ∈ ps, hasCall d l = false) (i : Nat)
    (ls : List Line) : statementsFrom d 0 i (ps ++ ls) = statementsFrom d 0 (i + ps.length) ls := by
  induction ps generalizing i with
  | nil => rfl
  | cons p ps ih =>
    rw [List.cons_append, statementsFrom, if_neg (by simp [hp p List.mem_cons_self]),
      ih fun l hl => hp l (List.mem_cons_of_mem p hl), List.length_cons]
    congr 1
    omega

theorem statementsFrom_skip_append {i : Nat} (ms ls : List Line) :
    statementsFrom d ms.length i (ms ++ ls) = statementsFrom d 0 (i + ms.length) ls := by
  rw [statementsFrom_skip, List.drop_left]

section
variable (he : d.escape ≠ '\n') (hd : ∀ token ∈ d.callTokens, token ≠ [])
include he hd

theorem extent_insert {a : Line} {as qs bs : List Line} (hc : hasCall d a)
    (ha : ∀ l ∈ a :: as, Ended l) (hq : ∀ l ∈ qs, Quiet d l) (hl : Lined (qs ++ bs))
    (hx : extent d (a :: (as ++ bs)) ≤ as.length) :
    extent d (a :: (as ++ (qs ++ bs))) = extent d (a :: (as ++ bs)) := by
  unfold extent at hx ⊢
  cases h : closing? d (a :: (as ++ bs)) with
  | none => rw [closing?_insert he hd hc ha hq hl h]
  | some k =>
    rw [h, Option.getD_some] at hx
    rw [closing?_append_of_le h hx]

variable {ms ps qs bs : List Line} (hp : ∀ l ∈ ps, Ended l ∧ Quiet d l)
  (hq : ∀ l ∈ qs, Quiet d l) (hl : Lined (qs ++ bs))
include hp hq hl

/-- The walk passes over the quiet lines above the statement, the statement and those below it. -/
theorem statementsFrom_insert_here {m : Line} (hm : ∀ l ∈ m :: ms, Ended l) (i : Nat)
    (hc : hasCall d m) (hx : extent d (m :: (ms ++ bs)) = ms.length) :
    statementsFrom d 0 i (ps ++ (m :: (ms ++ (qs ++ bs)))) =
      (statementsFrom d 0 i (m :: (ms ++ bs))).map
        (Span.shift ps.length qs.length i (i + ms.length)) := by
  have same := extent_insert he hd hc hm hq hl hx.le
  have after : statementsFrom d 0 (i + ps.length + 1 + ms.length + qs.length) bs =
      (statementsFrom d 0 (i + 1 + ms.length) bs).map (Span.shift ps.length qs.length i
        (i + ms.length)) := by
    rw [show i + ps.length + 1 + ms.length + qs.length =
      i + 1 + ms.length + (ps.length + qs.length) by omega, statementsFrom_add]
    apply List.map_congr_left
    intro st hst
    obtain ⟨j, -, hs, -, -, hx⟩ := mem_statementsFrom hst
    rw [Span.shift, shiftLine_below (by omega) (by omega), shiftLine_below (by omega) (by omega),
      Nat.add_assoc, Nat.add_assoc]
  have head : Span.shift ps.length qs.length i (i + ms.length) ⟨i, i + ms.length⟩ =
      ⟨i + ps.length, i + ps.length + ms.length⟩ := by
    rw [Span.shift, shiftLine_inside (Nat.le_refl i) (Nat.le_add_right i _),
      shiftLine_inside (Nat.le_add_right i _) (Nat.le_refl _), Nat.add_right_comm]
  rw [statementsFrom_quiet fun l h => (hp l h).2.noCall, statementsFrom, statementsFrom, if_pos hc,
    if_pos hc, same, hx, statementsFrom_skip_append, statementsFrom_skip_append,
    statementsFrom_quiet fun l h => (hq l h).noCall, after, List.map_cons, head]

variable (hm : ∀ l ∈ ms, Ended l)
include hm

theorem extent_insert_around {a : Line} {as : List Line} (hc : hasCall d a)
    (ha : ∀ l ∈ a :: as, Ended l) (hx : extent d (a :: (as ++ (ms ++ bs))) ≤ as.length) :
    extent d (a :: (as ++ (ps ++ (ms ++ (qs ++ bs))))) = extent d (a :: (as ++ (ms ++ bs))) := by
  have all : ∀ l ∈ a :: (as ++ ms), Ended l := by
    rw [← List.cons_append]
    exact fun l h => (List.mem_append.1 h).elim (ha l) (hm l)
  have below : extent d (a :: (as ++ (ms ++ (qs ++ bs)))) = extent d (a :: (as ++ (ms ++ bs))) := by
    rw [← List.append_assoc as ms] at hx ⊢
    rw [← List.append_assoc as ms]
    refine extent_insert he hd hc all hq hl (Nat.le_trans hx ?_)
    rw [List.length_append]
    omega
  rw [← below]
  exact extent_insert he hd hc ha (fun l h => (hp l h).2)
    (.append (fun l h => (hp l h).1) (.append hm hl)) (below ▸ hx)

/-- The walk over lines with quiet lines put around a statement. The induction is on the lines
above; a statement among them ends above or never closes, with or without the insertion. -/
theorem statementsFrom_insert {as : List Line} {k i : Nat} (ha : ∀ l ∈ as, Ended l)
    (hne : ms ≠ []) (hst : ⟨i + as.length, i + as.length + (ms.length - 1)⟩ ∈
      statementsFrom d k i (as ++ (ms ++ bs))) :
    statementsFrom d k i (as ++ (ps ++ (ms ++ (qs ++ bs)))) =
      (statementsFrom d k i (as ++ (ms ++ bs))).map (Span.shift ps.length qs.length
        (i + as.length) (i + as.length + (ms.length - 1))) := by
  induction as generalizing k i with
  | nil =>
    obtain ⟨m, ms, rfl⟩ := List.exists_cons_of_ne_nil hne
    obtain ⟨j, hk, hs, -, hc, hx⟩ := mem_statementsFrom hst
    simp only [List.length_nil, Nat.add_zero, List.length_cons, Nat.add_sub_cancel] at hs hx ⊢
    obtain rfl : j = 0 := by omega
    obtain rfl : k = 0 := by omega
    have hx : extent d (m :: (ms ++ bs)) = ms.length := by
      simp only [List.nil_append, List.cons_append, List.drop_zero] at hx
      omega
    exact statementsFrom_insert_here he hd hp hq hl hm i hc hx
  | cons a as ih =>
    have next : i + (a :: as).length = i + 1 + as.length := by
      rw [List.length_cons]
      omega
    have hae : ∀ l ∈ as, Ended l := fun l h => ha l (List.mem_cons_of_mem a h)
    rw [next] at hst ⊢
    cases k with
    | succ k => exact ih hae hst
    | zero =>
      rw [List.cons_append, statementsFrom] at hst
      rw [List.cons_append, List.cons_append, statementsFrom, statementsFrom]
      by_cases hc : hasCall d a
      · rw [if_pos hc] at hst
        rw [if_pos hc, if_pos hc]
        have below := (List.mem_cons.1 hst).resolve_left fun e => by
          have := congrArg Span.start e
          simp only at this
          omega
        obtain ⟨j, hj, hs, -⟩ := mem_statementsFrom below
        have hs : i + 1 + as.length = i + 1 + j := hs
        have hx : extent d (a :: (as ++ (ms ++ bs))) ≤ as.length := by
          omega
        have head : Span.shift ps.length qs.length (i + 1 + as.length)
            (i + 1 + as.length + (ms.length - 1)) ⟨i, i + extent d (a :: (as ++ (ms ++ bs)))⟩ =
              ⟨i, i + extent d (a :: (as ++ (ms ++ bs)))⟩ := by
          rw [Span.shift, shiftLine_above (show i < _ by omega),
            shiftLine_above (show i + extent d _ < _ by omega)]
        rw [extent_insert_around he hd hp hq hl hm hc ha hx, ih hae below, List.map_cons, head]
      · rw [if_neg hc] at hst
        rw [if_neg hc, if_neg hc]
        exact ih hae hst

end

structure Dialect.Unobtrusive (d : Dialect) : Prop extends d.BreakFree where
  opening : ∀ (first : Line), ∀ l ∈ splitLines (openingText d first), Quiet d l
  closing : ∀ (first last : Line), ∀ l ∈ splitLines (closingText d first last), Quiet d l

/-- With one statement enclosed the statements are the same, save that they move. -/
theorem statements_enclose (hd : d.Unobtrusive) {ls : List Line} {s e : Nat} (hl : Lined ls)
    (hst : ⟨s, e⟩ ∈ statements d ls) : statements d (enclose d s e ls) =
      (statements d ls).map (Span.shift (splitLines (openingText d (lineAt ls s))).length
        (splitLines (closingText d (lineAt ls s) (lineAt ls e))).length s e) := by
  have hs : s ≤ e := start_le_last hst
  have he : e < ls.length := last_lt hst
  have above : ∀ l ∈ ls.take s, Ended l := hl.take_ended (by omega)
  have same : statements d (ls.take s ++ (between (breakAt s e ls) s (e + 1) ++
      ls.drop (e + 1))) = statements d ls := by
    rw [← breakAt_eq hs]
    exact statements_breakAt hd.toBreakFree hl he
  have inside : (between (breakAt s e ls) s (e + 1)).length = e + 1 - s :=
    length_between _ _ (by rw [breakAt_length]; omega)
  have len : (ls.take s).length = s := by
    rw [List.length_take]
    omega
  have last : s + (e + 1 - s - 1) = e := by omega
  have target : ⟨0 + (ls.take s).length, 0 + (ls.take s).length +
      ((between (breakAt s e ls) s (e + 1)).length - 1)⟩ ∈ statements d (ls.take s ++
        (between (breakAt s e ls) s (e + 1) ++ ls.drop (e + 1))) := by
    rw [same, inside, len, Nat.zero_add, last]
    exact hst
  have moved := statementsFrom_insert hd.escape_ne hd.token_ne_nil
    (fun l h => ⟨splitLines_ended (openingText_getLast _) l h, hd.opening (lineAt ls s) l h⟩)
    (hd.closing (lineAt ls s) (lineAt ls e)) (lined_closing_append hl he (lineAt ls s))
    (ended_of_mem_breakAt hl hs he) above
    (List.ne_nil_of_length_pos (by omega)) target
  rw [inside, len, Nat.zero_add, last] at moved
  rw [enclose_eq hs, ← same]
  exact moved

end CallGuard
