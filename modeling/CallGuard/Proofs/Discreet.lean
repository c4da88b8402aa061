import CallGuard.Proofs.Carry
import CallGuard.Proofs.Idempotence
set_option autoImplicit false

/-!
# Discreet dialects

A dialect is discreet when the lines written around a statement hold no call, are found from the
statement, and close nothing that a statement above leaves open. Closing lines may leave more open
than they find; opening lines may close as much, since closing lines come first.

Guarding is then idempotent on texts without markers.
-/
namespace CallGuard

def Fresh (d : Dialect) (t : Text) : Prop := ∀ l ∈ splitLines t, d.isMarker l = false

/-- Guarding the output again adds nothing. -/
def Settles (d : Dialect) (t : Text) : Prop :=
  (guardText d (guardText d t).output).blocks = [] ∧
    (guardText d (guardText d t).output).output = (guardText d t).output

instance (d : Dialect) (t : Text) : Decidable (Fresh d t) :=
  inferInstanceAs (Decidable (∀ l ∈ splitLines t, d.isMarker l = false))

instance (d : Dialect) (t : Text) : Decidable (Settles d t) :=
  inferInstanceAs (Decidable (_ ∧ _))

/-- From `n` open delimiters on, no opening lines close the nesting or change the quotes. -/
def Dialect.Passes (d : Dialect) (n : Nat) : Prop := ∀ (first : Line) (q : Bool), ∃ u m,
  carry d ⟨q, false⟩ n (splitLines (openingText d first)) = some (u, m) ∧ u.inQuote = q

structure Dialect.Discreet (d : Dialect) : Prop extends d.BreakFree where
  opening : ∀ (first : Line), ∀ l ∈ splitLines (openingText d first), hasCall d l = false
  closing : ∀ (first last : Line), ∀ l ∈ splitLines (closingText d first last), hasCall d l = false
  opener : ∀ (first : Line) (above : List Line),
    hasOpener d true d.window 0 ((splitLines (openingText d first)).reverse ++ above)
  closer : ∀ (first last : Line) (below : List Line),
    hasCloser d d.window 0 (splitLines (closingText d first last) ++ below)
  nesting : ∀ (first last : Line) (q : Bool), ∃ u m,
    carry d ⟨q, false⟩ 1 (splitLines (closingText d first last)) = some (u, m) ∧ u.inQuote = q ∧
      d.Passes m

variable {d : Dialect} {ls : List Line} {bs : List Block} {i s e : Nat}

/-! ## A break after the last line -/

theorem carry_breakAt (hd : d.BreakFree) (hl : Lined ls) (he : e < ls.length) {c : Scan} {n : Nat}
    (i : Nat) : (carry d c n ((breakAt s e ls).drop i)).isSome ↔ (carry d c n (ls.drop i)).isSome := by
  obtain ⟨ks, l, v, hv, h1, h2⟩ := exists_breakAt (s := s) hl he
  rw [h2, h1]
  by_cases hi : i ≤ ks.length
  · rw [List.drop_append_of_le_length hi, List.drop_append_of_le_length hi, ← closingFrom_eq_none_iff,
      closingFrom_append_break hd hv, closingFrom_eq_none_iff]
  · rw [List.drop_eq_nil_of_le (by simp only [List.length_append, List.length_singleton]; omega),
      List.drop_eq_nil_of_le (by simp only [List.length_append, List.length_singleton]; omega)]

theorem closing?_breakAt (hd : d.BreakFree) (hl : Lined ls) (he : e < ls.length)
    (hc : hasCall d (lineAt ls i)) :
    closing? d ((breakAt s e ls).drop i) = closing? d (ls.drop i) := by
  have hi := lt_length_of_hasCall hc
  obtain ⟨ks, l, v, hv, h1, h2⟩ := exists_breakAt (s := s) hl he
  rw [h1, List.length_append, List.length_singleton] at hi
  rw [h2, h1, List.drop_append_of_le_length (by omega), List.drop_append_of_le_length (by omega)]
  exact closing?_append_break hd hv _ l

theorem breakAt_drop_eq (hi : i ≤ s) (hs : s ≤ e) : (breakAt s e ls).drop i =
    between ls i s ++ (between (breakAt s e ls) s (e + 1) ++ ls.drop (e + 1)) := by
  have above : between (breakAt s e ls) i s = between ls i s := by
    rw [between, breakAt_take hs, between]
  rw [drop_eq_between_append hi, above, drop_eq_between_append (by omega : s ≤ e + 1),
    breakAt_drop (by omega)]

theorem ended_between (hl : Lined ls) (hs : s < ls.length) (i : Nat) : ∀ l ∈ between ls i s, Ended l :=
  fun l hm => hl.take_ended hs l (List.mem_of_mem_drop hm)

/-! ## Nesting across the lines written -/

theorem rest_eq_nil {b : Block} (h : InOrder ls.length i (b :: bs)) (hlast : b.last + 1 = ls.length) :
    (encloseAll d ls bs).drop (b.last + 1) = [] := by
  cases bs with
  | nil => exact List.drop_eq_nil_of_le (by change ls.length ≤ _; omega)
  | cons b' bs =>
    obtain ⟨-, -, -, g1, g2, g3, -⟩ := h
    omega

/-- What the closing lines of a block leave open is enough for the lines below it, given that it is
for the blocks there. -/
theorem carry_closing (hd : d.Discreet) (hl : Lined ls) {b : Block}
    (h : InOrder ls.length i (b :: bs)) {c : Scan} {n : Nat} (hc : c.pending = false) (hn : 1 ≤ n)
    (rest : ∀ m, 1 ≤ m → d.Passes m →
      (carry d c (n + (m - 1)) ((encloseAll d ls bs).drop (b.last + 1))).isSome) :
    (carry d c n (splitLines (closingText d (lineAt ls b.start) (lineAt ls b.last)) ++
      (encloseAll d ls bs).drop (b.last + 1))).isSome := by
  obtain ⟨u, m, hQ, hu, pass⟩ := hd.nesting (lineAt ls b.start) (lineAt ls b.last) c.inQuote
  have ceq : (⟨c.inQuote, false⟩ : Scan) = c := Scan.eq_of hc rfl rfl
  rw [ceq] at hQ
  have pos := carry_pos (Nat.le_refl 1) hQ
  have hQ := carry_add (Nat.le_refl 1) hQ (n - 1)
  rw [show n = 1 + (n - 1) by omega, carry_append_of_some hQ]
  by_cases hlast : b.last + 1 < ls.length
  · have ended : ∀ l ∈ splitLines (closingText d (lineAt ls b.start) (lineAt ls b.last)), Ended l :=
      splitLines_ended (closingText_getLast (hl.ended_lineAt hlast).terminator_ne_nil)
    obtain rfl : u = c := Scan.eq_of hc (carry_pending hd.escape_ne hc ended hQ) hu
    rw [show m + (n - 1) = n + (m - 1) by omega]
    exact rest m pos pass
  · have hlt := h.2.2.1
    rw [rest_eq_nil h (by omega)]
    rfl

/-- A run that gets through some lines gets through them with the blocks enclosed, given the depth
that the closing lines of a block above have left. The induction is on the blocks: opening lines
spend at most what the closing lines before them have left, and the next closing lines leave it
again. -/
theorem carry_encloseAll (hd : d.Discreet) (hl : Lined ls) (h : InOrder ls.length i bs) {c : Scan}
    {n m : Nat} (hc : c.pending = false) (hn : 1 ≤ n) (hm : 1 ≤ m) (pass : d.Passes m)
    (ht : (carry d c n (ls.drop i)).isSome) :
    (carry d c (n + (m - 1)) ((encloseAll d ls bs).drop i)).isSome := by
  induction bs generalizing i c n m with
  | nil =>
    obtain ⟨x, hx⟩ := Option.isSome_iff_exists.1 ht
    change (carry d c (n + (m - 1)) (ls.drop i)).isSome
    rw [carry_add hn hx (m - 1)]
    rfl
  | cons b bs ih =>
    have order := h
    obtain ⟨h1, h2, h3, h4⟩ := h
    rw [← carry_breakAt hd.toBreakFree hl h3 i (s := b.start), breakAt_drop_eq h1 h2] at ht
    obtain ⟨c1, n1, hX, inside⟩ := exists_of_carry_append ht
    obtain ⟨c2, n2, hM, below⟩ := exists_of_carry_append inside
    have p1 : c1.pending = false :=
      carry_pending hd.escape_ne hc (ended_between hl (by omega) i) hX
    have p2 : c2.pending = false :=
      carry_pending hd.escape_ne p1 (ended_of_mem_breakAt hl h2 h3) hM
    have n1pos := carry_pos hn hX
    have n2pos := carry_pos n1pos hM
    -- the opening lines, from the depth that the text has and the depth that is left over
    obtain ⟨v, k, hP, hv⟩ := pass (lineAt ls b.start) c1.inQuote
    have c1eq : (⟨c1.inQuote, false⟩ : Scan) = c1 := Scan.eq_of p1 rfl rfl
    rw [c1eq] at hP
    have vp := carry_pending hd.escape_ne p1 (splitLines_ended (openingText_getLast _)) hP
    obtain rfl : v = c1 := Scan.eq_of p1 vp hv
    have kpos := carry_pos hm hP
    have hP := carry_add hm hP (n1 - 1)
    rw [encloseAll_drop order, carry_append_of_some (carry_add hn hX (m - 1)),
      show n1 + (m - 1) = m + (n1 - 1) by omega, carry_append_of_some hP,
      show k + (n1 - 1) = n1 + (k - 1) by omega, carry_append_of_some (carry_add n1pos hM (k - 1))]
    obtain ⟨x, hx⟩ := Option.isSome_iff_exists.1 below
    apply carry_closing hd hl order p2 (by omega)
    intro w wpos pass'
    refine ih h4 p2 (by omega) wpos pass' ?_
    rw [carry_add n2pos hx (k - 1)]
    rfl

theorem hasCall_breakAt (hd : d.BreakFree) (s e i : Nat) (ls : List Line) :
    hasCall d (lineAt (breakAt s e ls) i) = hasCall d (lineAt ls i) := by
  rcases preserved_breakAt s e i ls with h | ⟨-, k, h⟩
  · rw [h]
  · have brk : IsBreak (lineBreak k) := by
      intro c hc
      rcases lineBreak_cases k with e | e <;> rw [e] at hc <;> simp_all
    rw [h, hasCall_append_inert hd.tokens (hd.inert brk)]

theorem block_lines {b : Block} (h : b.start ≤ b.last) (hlt : b.last < ls.length) :
    between (breakAt b.start b.last ls) b.start (b.last + 1) =
      lineAt (breakAt b.start b.last ls) b.start ::
        between (breakAt b.start b.last ls) (b.start + 1) (b.last + 1) :=
  between_cons (by omega) (by rw [breakAt_length]; omega)

/-- In the output a statement ends where it ends in the text. -/
theorem extent_encloseAll (hd : d.Discreet) (hl : Lined ls) {b : Block}
    (h : InOrder ls.length i (b :: bs)) (hc : hasCall d (lineAt ls b.start))
    (hlast : b.last = lastLine d ls b.start) :
    extent d (between (breakAt b.start b.last ls) b.start (b.last + 1) ++
      (splitLines (closingText d (lineAt ls b.start) (lineAt ls b.last)) ++
        (encloseAll d ls bs).drop (b.last + 1))) = b.last - b.start := by
  have order := h
  obtain ⟨-, h2, h3, h4⟩ := h
  have len := length_between_breakAt (s := b.start) h3
  have here := closing?_breakAt hd.toBreakFree hl h3 hc (s := b.start)
  have none : between ls b.start b.start = [] := by simp [between]
  rw [breakAt_drop_eq (Nat.le_refl _) h2, none, List.nil_append] at here
  have ended := ended_of_mem_breakAt hl h2 h3
  have first : hasCall d (lineAt (breakAt b.start b.last ls) b.start) := by
    rw [hasCall_breakAt hd.toBreakFree]
    exact hc
  rw [lastLine_eq, extent] at hlast
  rw [block_lines h2 h3] at here len ended ⊢
  generalize lineAt (breakAt b.start b.last ls) b.start = l at here len ended first ⊢
  generalize between (breakAt b.start b.last ls) (b.start + 1) (b.last + 1) = ms at here len ended ⊢
  rw [List.length_cons] at len
  cases hx : closing? d (ls.drop b.start) with
  | some k =>
    rw [hx, Option.getD_some] at hlast
    rw [hx] at here
    rw [List.cons_append, extent, closing?_append_of_le here (by omega), Option.getD_some]
    omega
  | none =>
    rw [hx, Option.getD_none] at hlast
    rw [hx] at here
    obtain rfl : ms = [] := List.length_eq_zero_iff.1 (by omega)
    -- the statement has one line: run over the closing lines and the rest of the output
    obtain ⟨n, hn⟩ := exists_callDepth here
    have pos := callDepth?_pos hd.token_ne_nil first hn
    have through := (closing?_eq_none_iff hn).1 here
    have pending := Scan.after_ended hd.escape_ne (ended l List.mem_cons_self) {}
    have open' := carry_closing hd hl order pending pos fun m hm pass =>
      carry_encloseAll hd hl h4 pending pos hm pass through
    rw [List.cons_append, List.nil_append, extent, (closing?_eq_none_iff hn).2 open',
      Option.getD_none]
    omega

/-! ## The output -/

/-- Markers that are found from wherever they stand frame the lines between them. -/
theorem framed_between {as ps ms qs bs : List Line}
    (hp : ∀ above, hasOpener d true d.window 0 (ps.reverse ++ above))
    (hq : ∀ below, hasCloser d d.window 0 (qs ++ below)) {st : Span}
    (hs : st.start = as.length + ps.length) (he : st.last + 1 = as.length + ps.length + ms.length) :
    framed d (as ++ (ps ++ (ms ++ (qs ++ bs)))) st = true := by
  have above : linesAbove (as ++ (ps ++ (ms ++ (qs ++ bs)))) st.start = ps.reverse ++ as.reverse := by
    rw [linesAbove_eq (by simp only [List.length_append]; omega), hs, List.take_length_add_append,
      List.take_left, List.reverse_append]
  have below : (as ++ (ps ++ (ms ++ (qs ++ bs)))).drop (st.last + 1) = qs ++ bs := by
    rw [he, Nat.add_assoc, List.drop_length_add_append, List.drop_length_add_append, List.drop_left]
  rw [framed, above, below, hp, hq]
  rfl

theorem noCall_drop (h : statementsFrom d 0 i (ls.drop i) = []) :
    ∀ l ∈ ls.drop i, hasCall d l = false := by
  intro l hl
  obtain ⟨j, hj, rfl⟩ := List.mem_iff_getElem.1 hl
  have hlt : i + j < ls.length := by
    rw [List.length_drop] at hj
    omega
  rw [List.getElem_drop, ← lineAt_eq_getElem hlt]
  exact walk_eq_nil h (by omega)

theorem framed_segment {xs ps ms qs rest : List Line} {l : Line}
    (before : ∀ k ∈ xs, hasCall d k = false) (quiet : ∀ k ∈ ps, hasCall d k = false)
    (quiet' : ∀ k ∈ qs, hasCall d k = false) (first : hasCall d l)
    (ext : extent d (l :: (ms ++ (qs ++ rest))) = ms.length)
    (opens : ∀ above, hasOpener d true d.window 0 (ps.reverse ++ above))
    (closes : ∀ below, hasCloser d d.window 0 (qs ++ below)) (above : List Line)
    (tail : ∀ st ∈ statementsFrom d 0 (above ++ xs ++ ps ++ l :: ms ++ qs).length rest,
      framed d (above ++ xs ++ ps ++ l :: ms ++ qs ++ rest) st) :
    ∀ st ∈ statementsFrom d 0 above.length (xs ++ (ps ++ (l :: ms ++ (qs ++ rest)))),
      framed d (above ++ (xs ++ (ps ++ (l :: ms ++ (qs ++ rest))))) st := by
  intro st hst
  rw [statementsFrom_quiet before, statementsFrom_quiet quiet, List.cons_append, statementsFrom,
    if_pos first, ext, statementsFrom_skip_append, statementsFrom_quiet quiet'] at hst
  rcases List.mem_cons.1 hst with rfl | hst
  · rw [← List.append_assoc above]
    refine framed_between opens closes ?_ ?_
    · simp only [List.length_append]
    · simp only [List.length_append, List.length_cons]
      omega
  · have place : above.length + xs.length + ps.length + 1 + ms.length + qs.length =
        (above ++ xs ++ ps ++ l :: ms ++ qs).length := by
      simp only [List.length_append, List.length_cons]
      omega
    rw [place] at hst
    have := tail st hst
    simpa only [List.append_assoc] using this

/-- Every statement of the output stands between markers. The induction is on the blocks, which hold
all calls of the text. -/
theorem framed_output (hd : d.Discreet) (hl : Lined ls) (h : InOrder ls.length i bs)
    (hb : statementsFrom d 0 i (ls.drop i) = bs.map fun b => ⟨b.start, b.last⟩) (above : List Line) :
    ∀ st ∈ statementsFrom d 0 above.length ((encloseAll d ls bs).drop i),
      framed d (above ++ (encloseAll d ls bs).drop i) st := by
  induction bs generalizing i above with
  | nil =>
    have none : statementsFrom d 0 above.length (ls.drop i) = [] := by
      rw [← List.append_nil (ls.drop i), statementsFrom_quiet (noCall_drop hb)]
      rfl
    change ∀ st ∈ statementsFrom d 0 above.length (ls.drop i), _
    rw [none]
    simp
  | cons b bs ih =>
    obtain ⟨h1, hno, hc, hlast, hrest⟩ := walk_eq_cons hb
    have order := h
    obtain ⟨-, h2, h3, h4⟩ := h
    have ext := extent_encloseAll hd hl order hc hlast
    have len := length_between_breakAt (s := b.start) h3
    have first : hasCall d (lineAt (breakAt b.start b.last ls) b.start) := by
      rw [hasCall_breakAt hd.toBreakFree]
      exact hc
    have before : ∀ l ∈ between ls i b.start, hasCall d l = false := by
      intro l hl
      obtain ⟨j, hj, hlt, rfl⟩ := mem_between hl
      exact hno j hj hlt
    rw [encloseAll_drop order]
    rw [block_lines h2 h3] at ext len ⊢
    rw [List.length_cons] at len
    exact framed_segment before (hd.opening _) (hd.closing _ _) first (ext.trans (by omega))
      (hd.opener _) (hd.closer _ _) above (ih h4 hrest _)

theorem framed_eq_false_of_fresh (hf : ∀ l ∈ ls, d.isMarker l = false) (st : Span) :
    framed d ls st = false := by
  have above : ∀ l ∈ linesAbove ls st.start, d.isMarker l = false := by
    intro l hl
    unfold linesAbove at hl
    split at hl
    · exact hf l (List.mem_of_mem_take (List.mem_reverse.1 hl))
    · cases hl
  have none : hasOpener d true d.window 0 (linesAbove ls st.start ++ []) = false := by
    rw [hasOpener_append_unmarked above]
    exact Bool.and_false _
  rw [List.append_nil] at none
  rw [framed, none, Bool.false_and]

theorem blocks_of_fresh (hf : ∀ l ∈ ls, d.isMarker l = false) :
    statements d ls = (blocks d ls).map Block.span := by
  rw [map_span_blocks_framed, eq_comm, List.filter_eq_self]
  intro st _
  rw [framed_eq_false_of_fresh hf, Bool.not_false]

theorem Dialect.Discreet.settles (hd : d.Discreet) {t : Text} (hf : Fresh d t) : Settles d t := by
  have lined := lined_splitLines t
  have none : (guardText d (guardText d t).output).blocks = [] := by
    change blocks d (splitLines (guardCalls d (splitLines t)).output) = []
    rw [splitLines_guardCalls_output lined]
    exact blocks_eq_nil (framed_output hd lined (blocks_inOrder d _) (blocks_of_fresh hf) [])
  exact ⟨none, guardText_output_of_no_blocks none⟩

end CallGuard
