import CallGuard.Proofs.Probes
set_option autoImplicit false

/-!
# When guarding is idempotent on texts without markers

In an ordinary dialect guarding is idempotent on all texts without markers exactly when its markers
are repeatable, or there are no calls at all. Each condition on the markers has a text of its own,
made of a few lines, on which a second run adds a guard when the condition fails.
-/
namespace CallGuard

variable {d : Dialect} {q : Bool} {n m : Nat} {l : Line} {o tk : Text} {ls as bs out : List Line}

/-! ## What a found marker shows -/

theorem exists_opensGuard {stops : Bool} (h : hasOpener d stops n m ls) :
    ∃ l ∈ ls, d.opensGuard l := by
  by_contra hn
  have none : ∀ l ∈ ls, d.opensGuard l = false := by
    intro l hl
    exact Bool.eq_false_iff.2 fun ho => hn ⟨l, hl, ho⟩
  clear hn
  induction ls generalizing n m with
  | nil => cases h
  | cons l ls ih =>
    obtain ⟨here, below⟩ := List.forall_mem_cons.1 none
    unfold hasOpener at h ih
    simp only [openerAbove, here, Bool.false_eq_true, if_false] at h
    split at h
    · exact ih h below
    · split at h
      · cases h
      · split at h
        · cases h
        · exact ih h below

theorem exists_closesGuard (h : hasCloser d n m ls) : ∃ l ∈ ls, d.closesGuard l := by
  by_contra hn
  have none : ∀ l ∈ ls, d.closesGuard l = false := by
    intro l hl
    exact Bool.eq_false_iff.2 fun ho => hn ⟨l, hl, ho⟩
  clear hn
  induction ls generalizing n m with
  | nil => cases h
  | cons l ls ih =>
    obtain ⟨here, below⟩ := List.forall_mem_cons.1 none
    unfold hasCloser at h
    simp only [closerBelow, here, Bool.false_eq_true, if_false] at h
    split at h
    · exact ih (by rwa [isSome_closerBelow] at h) below
    · split at h
      · cases h
      · exact ih (by rwa [isSome_closerBelow] at h) below

/-- No line of a text holds a marker with a line break inside. -/
theorem isDirective_of_break {o : Text} (ho : '\n' ∈ trim o) (hl : Lined ls) (hm : l ∈ ls) :
    isDirective o l = false := by
  cases h : isDirective o l with
  | false => rfl
  | true =>
    obtain ⟨r, hr, -⟩ := isDirective_iff.1 h
    obtain ⟨a, b, e⟩ := List.append_of_mem ho
    have hb : b ≠ [] := by
      rintro rfl
      exact absurd (getLast_trim (by rw [e]; exact List.getLast?_concat)) (by decide)
    obtain ⟨x, hx⟩ : ∃ x : Text, x ++ trimStart l = l :=
      ⟨l.takeWhile isBlank, List.takeWhile_append_dropWhile⟩
    have whole : l = x ++ (a ++ '\n' :: (b ++ r)) := by
      rw [← hx, hr, e]
      simp
    have inner : '\n' ∈ l.dropLast := by
      rw [whole, ← List.append_assoc, List.dropLast_append_of_ne_nil (List.cons_ne_nil _ _),
        List.dropLast_cons_of_ne_nil (by simp [hb])]
      simp
    exact absurd inner (hl.notMem_dropLast hm)

theorem exists_statement (hm : l ∈ ls) (hc : hasCall d l) : ∃ st, st ∈ statements d ls := by
  obtain ⟨j, hj, rfl⟩ := List.mem_iff_getElem.1 hm
  rw [← lineAt_eq_getElem hj] at hc
  obtain ⟨st, hst, -⟩ := exists_statement_around hc
  exact ⟨st, hst⟩

theorem framed_at (h : framed d (as ++ l :: bs) ⟨as.length, as.length + n⟩) :
    hasOpener d true d.window 0 as.reverse ∧ hasCloser d d.window 0 (bs.drop n) := by
  have above : linesAbove (as ++ l :: bs) as.length = as.reverse := by
    rw [linesAbove_eq (by simp), List.take_left]
  have below : (as ++ l :: bs).drop (as.length + n + 1) = bs.drop n := by
    rw [Nat.add_assoc, List.drop_length_add_append, List.drop_succ_cons]
  rw [framed, above, below, Bool.and_eq_true] at h
  exact h

theorem framed_first (hf : ∀ st ∈ statements d (as ++ l :: bs), framed d (as ++ l :: bs) st)
    (has : ∀ k ∈ as, hasCall d k = false) (hl : hasCall d l) :
    hasOpener d true d.window 0 as.reverse ∧
      hasCloser d d.window 0 (bs.drop (extent d (l :: bs))) := by
  refine framed_at (hf _ ?_)
  rw [statements, statementsFrom_quiet has, statementsFrom, if_pos hl, Nat.zero_add]
  exact List.mem_cons_self

/-! ## A closed call -/

section
variable (hd : d.Ordinary) (hs : ∀ t, Fresh d t → Settles d t) (hm : tk ∈ d.callTokens)
  (ht : ¬ d.lineComment <:+: tk)
include hd hs hm ht

theorem exists_written_call : ∃ (l last : Line) (ps qs : List Line), hasCall d l ∧
    (∀ ls, extent d (l :: ls) = 0) ∧ ps = splitLines (openingText d l) ∧
      qs = splitLines (closingText d l last) ∧ Lined (ps ++ l :: qs) ∧
        ∀ st ∈ statements d (ps ++ l :: qs), framed d (ps ++ l :: qs) st := by
  have long := (long_endLine hd).call hd hm
  have call := hasCall_token hd hm ht d.endLine
  have extent := extent_token_endLine hd hm ht
  obtain ⟨out, lined, written, between⟩ :=
    exists_written hs [tk ++ d.openDelim :: d.endLine] (by simpa using long)
  obtain ⟨last, below, -, rest, rfl⟩ := Written.call [] [] [] written (by simp)
    call (extent []) (by simpa using long.ended)
  obtain rfl := rest.quiet (by simp)
  rw [List.append_nil] at lined between
  exact ⟨_, last, _, _, call, extent, rfl, rfl, lined, between⟩

theorem openBreak_of_settles : '\n' ∉ trim d.openMarker := by
  intro hn
  obtain ⟨l, last, ps, qs, call, -, -, -, lined, between⟩ := exists_written_call hd hs hm ht
  obtain ⟨st, hst⟩ := exists_statement (show l ∈ ps ++ l :: qs by simp) call
  obtain ⟨k, hk, opens⟩ := exists_opensGuard (Bool.and_eq_true_iff.1 (between st hst)).1
  have mem : k ∈ ps ++ l :: qs := by
    unfold linesAbove at hk
    split at hk
    · exact List.mem_of_mem_take (List.mem_reverse.1 hk)
    · cases hk
  rw [Dialect.opensGuard, isDirective_of_break hn lined mem] at opens
  cases opens

theorem closeBreak_of_settles : '\n' ∉ trim d.closeMarker := by
  intro hn
  obtain ⟨l, last, ps, qs, call, -, -, -, lined, between⟩ := exists_written_call hd hs hm ht
  obtain ⟨st, hst⟩ := exists_statement (show l ∈ ps ++ l :: qs by simp) call
  obtain ⟨k, hk, closes⟩ := exists_closesGuard (Bool.and_eq_true_iff.1 (between st hst)).2
  rw [Dialect.closesGuard, isDirective_of_break hn lined (List.mem_of_mem_drop hk)] at closes
  cases closes

theorem openCall_of_settles : hasCall d (trim d.openMarker) = false := by
  apply Bool.eq_false_iff.2
  intro hc
  obtain ⟨l, last, ps, qs, -, -, rfl, -, -, between⟩ := exists_written_call hd hs hm ht
  obtain ⟨before, as, u, v, bs, e, has, hu, hv, -, -, -⟩ :=
    piece_opening hd.toPlain (openBreak_of_settles hd hs hm ht) l
  rw [e, List.append_assoc, List.cons_append] at between
  have core : hasCall d (u ++ (trim d.openMarker ++ v)) := by
    rw [hasCall_around hd.toPlain hu hv]
    exact hc
  -- nothing but blank lines stands above the call in the marker
  obtain ⟨k, hk, opens⟩ := exists_opensGuard
    (framed_first between (fun k hk => hasCall_of_blank hd.toPlain (has k hk)) core).1
  have blank := isMarker_of_blank hd.toPlain (has k (List.mem_reverse.1 hk))
  rw [(Bool.or_eq_false_iff.1 blank).1] at opens
  cases opens

theorem noCall_opening (first : Line) : ∀ k ∈ splitLines (openingText d first), hasCall d k = false := by
  obtain ⟨before, piece⟩ := piece_opening hd.toPlain (openBreak_of_settles hd hs hm ht) first
  exact piece.noCall hd.toPlain (openCall_of_settles hd hs hm ht)

theorem closeCall_of_settles : hasCall d (trim d.closeMarker) = false := by
  apply Bool.eq_false_iff.2
  intro hc
  obtain ⟨l, last, ps, qs, call, extent, rfl, rfl, -, between⟩ := exists_written_call hd hs hm ht
  obtain ⟨after, as, u, v, bs, e, has, hu, hv, hbs, -, -⟩ :=
    piece_closing hd.toPlain (closeBreak_of_settles hd hs hm ht) l last
  have quiet := noCall_opening hd hs hm ht l
  rw [e] at between
  generalize splitLines (openingText d l) = ps at between quiet
  have core : hasCall d (u ++ (trim d.closeMarker ++ v)) := by
    rw [hasCall_around hd.toPlain hu hv]
    exact hc
  have split : ps ++ l :: (as ++ (u ++ (trim d.closeMarker ++ v)) :: bs) =
      (ps ++ l :: as) ++ (u ++ (trim d.closeMarker ++ v)) :: bs := by
    simp
  have here : ⟨(ps ++ l :: as).length, (ps ++ l :: as).length +
      CallGuard.extent d ((u ++ (trim d.closeMarker ++ v)) :: bs)⟩ ∈
        statements d (ps ++ l :: (as ++ (u ++ (trim d.closeMarker ++ v)) :: bs)) := by
    rw [statements, statementsFrom_quiet quiet, statementsFrom, if_pos call, extent,
      statementsFrom_quiet fun k hk => hasCall_of_blank hd.toPlain (has k hk), statementsFrom,
      if_pos core]
    apply List.mem_cons_of_mem
    rw [List.length_append, List.length_cons, Nat.zero_add, show ps.length + 1 + as.length =
      ps.length + (as.length + 1) by omega]
    exact List.mem_cons_self
  have found := between _ here
  rw [split] at found
  -- nothing but blank lines stands below the call in the marker
  obtain ⟨k, hk, closes⟩ := exists_closesGuard (framed_at found).2
  have blank := isMarker_of_blank hd.toPlain (hbs k (List.mem_of_mem_drop hk))
  rw [(Bool.or_eq_false_iff.1 blank).2] at closes
  cases closes

theorem near_of_settles :
    breaksAfter d.openMarker ≤ d.window ∧ breaksBefore d.closeMarker ≤ d.window := by
  obtain ⟨l, last, ps, qs, call, extent, rfl, rfl, -, between⟩ := exists_written_call hd hs hm ht
  obtain ⟨opens, closes⟩ := framed_first between (noCall_opening hd hs hm ht l) call
  obtain ⟨before, above⟩ := piece_opening hd.toPlain (openBreak_of_settles hd hs hm ht) l
  obtain ⟨after, below⟩ := piece_closing hd.toPlain (closeBreak_of_settles hd hs hm ht) l last
  have near := above.opens hd.toPlain true []
  have near' := below.closes hd.toPlain []
  rw [List.append_nil] at near near'
  rw [near] at opens
  rw [extent, List.drop_zero, near'] at closes
  exact ⟨of_decide_eq_true opens, of_decide_eq_true closes⟩

end

/-! ## Runs over the lines written -/

theorem Piece.exists_closes (hd : d.Plain) {before after : Nat} (hl : Piece o before after ls)
    (ho : openDepth d n (classify d ⟨q, false⟩ o) = none) : ∃ (as : List Line) (k : Line)
      (bs : List Line), ls = as ++ k :: bs ∧ CallGuard.carry d ⟨q, false⟩ n as = some (⟨q, false⟩, n) ∧
        CallGuard.carry d ⟨q, false⟩ n [k] = none ∧ ∀ k ∈ bs, d.isMarker k = false := by
  obtain ⟨as, u, v, bs, rfl, has, hu, hv, hbs, -, -⟩ := hl
  obtain ⟨x, hx, inQuote, pending⟩ := carry_blank hd has ⟨q, false⟩ n
  obtain rfl : x = ⟨q, false⟩ := Scan.eq_of rfl (pending rfl) inQuote
  refine ⟨as, _, bs, rfl, hx, openDepth_eq_none_iff.1 ?_, fun k hk => isMarker_of_blank hd (hbs k hk)⟩
  rw [openDepth_around hd hu hv]
  exact ho

section
variable (hd : d.Plain)
include hd

theorem carry_opening (hn : '\n' ∉ trim d.openMarker)
    (ho : openDepth d n (classify d ⟨q, false⟩ (trim d.openMarker)) = some m) (first : Line) :
    carry d ⟨q, false⟩ n (splitLines (openingText d first)) =
      some (⟨(Scan.after d ⟨q, false⟩ (trim d.openMarker)).inQuote, false⟩, m) := by
  obtain ⟨_, piece⟩ := piece_opening hd hn first
  obtain ⟨u, hu, inQuote⟩ := piece.carry hd ho
  have pending := carry_pending hd.breakFree.escape_ne rfl
    (splitLines_ended (openingText_getLast first)) hu
  obtain rfl : u = ⟨_, false⟩ := Scan.eq_of rfl pending inQuote
  exact hu

theorem carry_closingText (hn : '\n' ∉ trim d.closeMarker)
    (ho : openDepth d n (classify d ⟨q, false⟩ (trim d.closeMarker)) = some m) (first : Line)
    {last : Line} (hl : Ended last) :
    carry d ⟨q, false⟩ n (splitLines (closingText d first last)) =
      some (⟨(Scan.after d ⟨q, false⟩ (trim d.closeMarker)).inQuote, false⟩, m) := by
  obtain ⟨_, piece⟩ := piece_closing hd hn first last
  obtain ⟨u, hu, inQuote⟩ := piece.carry hd ho
  have pending := carry_pending hd.breakFree.escape_ne rfl
    (splitLines_ended (closingText_getLast hl.terminator_ne_nil)) hu
  obtain rfl : u = ⟨_, false⟩ := Scan.eq_of rfl pending inQuote
  exact hu

end

/-! ## A call that never closes -/

section
variable (hd : d.Ordinary) (hs : ∀ t, Fresh d t → Settles d t) (hm : tk ∈ d.callTokens)
  (ht : ¬ d.lineComment <:+: tk)
include hd hs hm ht

/-- A call that stays open over the lines below it. When in the output some line closes it, a close
marker follows on that line. -/
theorem exists_written_unclosed (q : Bool) (ms : List Line) (hl : ∀ l ∈ ms, Long d l)
    (hopen : (carry d ⟨q, false⟩ 1 ms).isSome) : ∃ (first last : Line) (below : List Line),
      Ended last ∧ Written d ms below ∧ ∀ (as : List Line) (k : Line) (bs : List Line) (u : Scan)
        (n : Nat), splitLines (closingText d first last) ++ below = as ++ k :: bs →
          carry d ⟨q, false⟩ 1 as = some (u, n) → carry d u n [k] = none →
            hasCloser d d.window 0 bs := by
  have long := (long_quoteLine hd q).call hd hm
  have call := hasCall_token hd hm ht (d.quoteLine q)
  have stays (ls : List Line) : carry d {} 1 (d.quoteLine q :: ls) = carry d ⟨q, false⟩ 1 ls := by
    rw [carry_quoteLine hd, Bool.false_xor]
  have one : extent d ((tk ++ d.openDelim :: d.quoteLine q) :: ms) = 0 :=
    extent_token_of_carry hd hm ht (by rw [stays]; exact hopen)
  obtain ⟨out, -, written, between⟩ :=
    exists_written hs ((tk ++ d.openDelim :: d.quoteLine q) :: ms)
      (List.forall_mem_cons.2 ⟨long, hl⟩)
  obtain ⟨last, below, ended, rest, rfl⟩ := Written.call [] [] ms written (by simp)
    call one (by simpa using long.ended)
  rw [List.nil_append, List.singleton_append] at between
  refine ⟨tk ++ d.openDelim :: d.quoteLine q, last, below, ended, rest, ?_⟩
  intro as k bs u n e through closes
  obtain ⟨-, found⟩ := framed_first between (noCall_opening hd hs hm ht _) call
  rw [e, extent_token_of_closes hd hm ht (by rw [stays]; exact through) closes,
    ← List.drop_drop, List.drop_left, List.drop_succ_cons, List.drop_zero] at found
  exact found

theorem exists_depth_of_settles (q : Bool) :
    ∃ m, openDepth d 1 (classify d ⟨q, false⟩ (trim d.closeMarker)) = some m := by
  cases hc : openDepth d 1 (classify d ⟨q, false⟩ (trim d.closeMarker)) with
  | some m => exact ⟨m, rfl⟩
  | none =>
    obtain ⟨first, last, below, -, written, found⟩ :=
      exists_written_unclosed hd hs hm ht q [] (by simp) rfl
    obtain rfl := written.quiet (by simp)
    obtain ⟨after, piece⟩ := piece_closing hd.toPlain (closeBreak_of_settles hd hs hm ht) first last
    obtain ⟨as, k, bs, e, through, closes, unmarked⟩ := piece.exists_closes hd.toPlain hc
    rw [List.append_nil] at found
    obtain ⟨l, hl, closer⟩ := exists_closesGuard (found as k bs _ _ e through closes)
    rw [(Bool.or_eq_false_iff.1 (unmarked l hl)).2] at closer
    cases closer

theorem closeQuote_of_settles (q : Bool) :
    (Scan.after d ⟨q, false⟩ (trim d.closeMarker)).inQuote = q := by
  by_contra hq
  obtain ⟨m, hdepth⟩ := exists_depth_of_settles hd hs hm ht q
  have flipped : (Scan.after d ⟨q, false⟩ (trim d.closeMarker)).inQuote = !q := by
    cases q <;> simpa using hq
  have quiet : ∀ l ∈ [d.shutLine (!q) m], hasCall d l = false := by
    simpa using noCall_shutLine hd (!q) m
  obtain ⟨first, last, below, ended, written, found⟩ := exists_written_unclosed hd hs hm ht q
    [d.shutLine (!q) m] (by simpa using long_shutLine hd (!q) m) (by rw [carry_shutLine hd]; rfl)
  obtain rfl := written.quiet quiet
  have through := carry_closingText hd.toPlain (closeBreak_of_settles hd hs hm ht) hdepth first ended
  rw [flipped] at through
  have pos := carry_pos (Nat.le_refl 1) through
  have closes : carry d ⟨!q, false⟩ m [d.shutLine (!q) m] = none :=
    carry_shutLine_closes hd pos (Nat.le_refl m)
  cases found _ _ [] _ _ rfl through closes

theorem nesting_of_settles (q q' : Bool) :
    ∃ m, openDepth d 1 (classify d ⟨q, false⟩ (trim d.closeMarker)) = some m ∧
      (openDepth d m (classify d ⟨q', false⟩ (trim d.openMarker))).isSome := by
  obtain ⟨m, hdepth⟩ := exists_depth_of_settles hd hs hm ht q
  refine ⟨m, hdepth, ?_⟩
  cases ho : openDepth d m (classify d ⟨q', false⟩ (trim d.openMarker)) with
  | some k => rfl
  | none =>
    -- a second call, so long that below its first line the marker of the first is out of reach
    obtain ⟨first, last, below, ended, written, found⟩ := exists_written_unclosed hd hs hm ht q
      (d.quoteLine (q ^^ q') :: (d.closedCall tk (d.window + 1) ++ []))
      (List.forall_mem_cons.2 ⟨long_quoteLine hd _, by simpa using long_closedCall hd hm _⟩)
      (by rw [carry_quoteLine hd, carry_closedCall hd hm ht (Nat.le_refl 1)]; rfl)
    obtain ⟨first', last', below', -, -, rfl⟩ := Written.closedCall hd hm ht
      [d.quoteLine (q ^^ q')] [] written (by simpa using noCall_quoteLine hd (q ^^ q'))
    have through := carry_closingText hd.toPlain (closeBreak_of_settles hd hs hm ht) hdepth first ended
    rw [closeQuote_of_settles hd hs hm ht q] at through
    obtain ⟨before, piece⟩ := piece_opening hd.toPlain (openBreak_of_settles hd hs hm ht) first'
    obtain ⟨as, k, bs, e, inside, closes, unmarked⟩ := piece.exists_closes hd.toPlain ho
    have above : carry d ⟨q, false⟩ 1 (splitLines (closingText d first last) ++
        ([d.quoteLine (q ^^ q')] ++ as)) = some (⟨q', false⟩, m) := by
      have meets : (q ^^ (q ^^ q')) = q' := by
        cases q <;> cases q' <;> rfl
      rw [carry_append_of_some through, List.singleton_append, carry_quoteLine hd, meets, inside]
    have closer := found _ k (bs ++ (d.closedCall tk (d.window + 1) ++
      (splitLines (closingText d first' last') ++ below'))) _ _ (by rw [e]; simp) above closes
    have hidden : ∀ l ∈ bs ++ d.closedCall tk (d.window + 1), d.isMarker l = false :=
      List.forall_mem_append.2 ⟨unmarked, fun l hl => (long_closedCall hd hm _ l hl).isMarker⟩
    rw [← List.append_assoc, hasCloser_append_unmarked hidden, Bool.and_eq_true] at closer
    have reach := of_decide_eq_true closer.1
    simp only [Dialect.closedCall, List.length_append, List.length_cons, List.length_replicate] at reach
    omega

theorem openQuote_of_settles (q : Bool) :
    (Scan.after d ⟨q, false⟩ (trim d.openMarker)).inQuote = q := by
  by_contra hq
  have flipped : (Scan.after d ⟨q, false⟩ (trim d.openMarker)).inQuote = !q := by
    cases q <;> simpa using hq
  obtain ⟨m, hclose, hopen⟩ := nesting_of_settles hd hs hm ht q q
  obtain ⟨k, hopen⟩ := Option.isSome_iff_exists.1 hopen
  obtain ⟨j, hclose', -⟩ := nesting_of_settles hd hs hm ht (!q) q
  obtain ⟨first, last, below, ended, written, found⟩ := exists_written_unclosed hd hs hm ht q
    (d.closedCall tk 0 ++ [d.shutLine (!q) (j + (k - 1))])
    (List.forall_mem_append.2 ⟨long_closedCall hd hm 0, by simpa using long_shutLine hd (!q) _⟩)
    (by rw [carry_closedCall hd hm ht (Nat.le_refl 1), carry_shutLine hd]; rfl)
  obtain ⟨first', last', below', ended', rest, rfl⟩ :=
    Written.closedCall hd hm ht [] _ written (by simp)
  obtain rfl := rest.quiet (by simpa using noCall_shutLine hd (!q) _)
  have h1 := carry_closingText hd.toPlain (closeBreak_of_settles hd hs hm ht) hclose first ended
  rw [closeQuote_of_settles hd hs hm ht q] at h1
  have h2 := carry_opening hd.toPlain (openBreak_of_settles hd hs hm ht) hopen first'
  rw [flipped] at h2
  have h3 := carry_closingText hd.toPlain (closeBreak_of_settles hd hs hm ht) hclose' first' ended'
  rw [closeQuote_of_settles hd hs hm ht (!q)] at h3
  have mpos := carry_pos (Nat.le_refl 1) h1
  have kpos := carry_pos mpos h2
  have jpos := carry_pos (Nat.le_refl 1) h3
  have h3 := carry_add (Nat.le_refl 1) h3 (k - 1)
  rw [show 1 + (k - 1) = k by omega] at h3
  have through : carry d ⟨q, false⟩ 1 (splitLines (closingText d first last) ++
      (splitLines (openingText d first') ++ (d.closedCall tk 0 ++
        splitLines (closingText d first' last')))) = some (⟨!q, false⟩, j + (k - 1)) := by
    rw [carry_append_of_some h1, carry_append_of_some h2, carry_closedCall hd hm ht kpos, h3]
  have closes : carry d ⟨!q, false⟩ (j + (k - 1)) [d.shutLine (!q) (j + (k - 1))] = none :=
    carry_shutLine_closes hd (by omega) (Nat.le_refl _)
  cases found _ _ [] _ _ (by simp) through closes

end

/-! ## The condition -/

theorem Dialect.Callable.repeatable (hc : d.Callable) (hd : d.Ordinary)
    (hs : ∀ t, Fresh d t → Settles d t) : d.Repeatable := by
  obtain ⟨tk, hm, ht⟩ := hc
  exact {
    openBreak := openBreak_of_settles hd hs hm ht
    closeBreak := closeBreak_of_settles hd hs hm ht
    openNear := (near_of_settles hd hs hm ht).1
    closeNear := (near_of_settles hd hs hm ht).2
    openCall := openCall_of_settles hd hs hm ht
    closeCall := closeCall_of_settles hd hs hm ht
    openQuote := openQuote_of_settles hd hs hm ht
    closeQuote := closeQuote_of_settles hd hs hm ht
    nesting := nesting_of_settles hd hs hm ht }

theorem settles_of_not_callable (hd : d.Ordinary) (hc : ¬ d.Callable) (t : Text) : Settles d t := by
  have none (t : Text) : (guardText d t).blocks = [] := by
    apply List.eq_nil_iff_forall_not_mem.2
    intro b hb
    have call := (mem_statements (block_mem_statements hb)).2.1
    rw [hd.hasCall_eq_false hc] at call
    cases call
  exact ⟨none _, guardText_output_of_no_blocks (none _)⟩

/-- Guarding twice on texts without markers: what is enough in every dialect, and what is needed in an
ordinary one. -/
theorem fresh_texts_settle (d : Dialect) : (d.Discreet → ∀ t, Fresh d t → Settles d t) ∧
    (d.Ordinary → ((∀ t, Fresh d t → Settles d t) ↔ (d.Callable → d.Repeatable))) := by
  refine ⟨fun hd t ht => hd.settles ht, fun hd => ⟨fun hs hc => hc.repeatable hd hs, ?_⟩⟩
  intro h t ht
  by_cases hc : d.Callable
  · have discreet := (h hc).discreet hd.toPlain
    exact discreet.settles ht
  · exact settles_of_not_callable hd hc t

theorem Dialect.swift_ordinary : Dialect.swift.Ordinary := by
  have comment : Dialect.swift.lineComment.all fun c =>
      !isBlank c && !Dialect.swift.roles.contains c := by decide
  have tokens : Dialect.swift.callTokens.all fun token =>
      token.all fun c => !Dialect.swift.roles.contains c := by decide
  simp only [List.all_eq_true, Bool.not_eq_true', Bool.and_eq_true, List.contains_eq_mem,
    decide_eq_false_iff_not] at comment tokens
  exact {
    valid := Dialect.swift_neutral.valid
    visible := Dialect.swift_neutral.visible
    comment := fun c hc => (comment c hc).1
    commentRoles := fun c hc => (comment c hc).2
    tokenRoles := tokens }

theorem Dialect.swift_repeatable : Dialect.swift.Repeatable where
  openBreak := by decide
  closeBreak := by decide
  openNear := by decide
  closeNear := by decide
  openCall := by decide
  closeCall := by decide
  openQuote := by decide
  closeQuote := by decide
  nesting q q' := ⟨1, by cases q <;> rfl, by cases q' <;> rfl⟩

/-- A call over two lines and a call that never closes. -/
def freshText : Text := "func f() \x7b\n  print(\n    b)\r\n\x7d\nprint(c".toList

theorem fresh_texts_settle_freshText : Dialect.swift.Discreet ∧ Dialect.swift.Ordinary ∧
    Dialect.swift.Callable ∧ Fresh .swift freshText ∧ (guardText .swift freshText).count = 2 ∧
      Settles .swift freshText ∧ Dialect.swift.Repeatable := by
  have discreet := Dialect.swift_repeatable.discreet Dialect.swift_ordinary.toPlain
  have callable : Dialect.swift.Callable := ⟨"print".toList, by decide, by decide⟩
  have fresh : Fresh .swift freshText := by decide +kernel
  have all := (fresh_texts_settle .swift).1 discreet
  have needed := ((fresh_texts_settle .swift).2 Dialect.swift_ordinary).1 all callable
  exact ⟨discreet, Dialect.swift_ordinary, callable, fresh, by decide +kernel, all freshText fresh,
    needed⟩

/-- Its open marker is no line. -/
def Dialect.torn : Dialect := { Dialect.swift with openMarker := "#if\nDEBUG".toList }

theorem torn_not_settles : Dialect.torn.fault? = none ∧ Fresh .torn "print(x)\n".toList ∧
    ¬ Settles .torn "print(x)\n".toList := by
  decide +kernel

end CallGuard
