import CallGuard.Proofs.Ordinary
set_option autoImplicit false

/-!
# Probes

Lines that no marker can be, each with a known effect on quotes and nesting, and the output of texts
that are made of them.
-/
namespace CallGuard

/-- More quotes than a marker has characters; an odd number of them when `q` is set. -/
def Dialect.quotes (d : Dialect) (q : Bool) : Text :=
  List.replicate (2 * ((trim d.openMarker).length + (trim d.closeMarker).length + 1) + q.toNat) d.quote

def Dialect.quoteLine (d : Dialect) (q : Bool) : Line := d.quotes q ++ ['\n']

def Dialect.endLine (d : Dialect) : Line := d.closeDelim :: d.quoteLine false

def Dialect.shutLine (d : Dialect) (q : Bool) (k : Nat) : Line :=
  d.quotes q ++ (List.replicate k d.closeDelim ++ ['\n'])

def Dialect.closedCall (d : Dialect) (tk : Text) (k : Nat) : List Line :=
  (tk ++ d.openDelim :: d.quoteLine false) :: (List.replicate k (d.quoteLine false) ++ [d.endLine])

def Long (d : Dialect) (l : Line) : Prop := ∃ w : Text, l = w ++ ['\n'] ∧
  (∀ c ∈ w, isBlank c = false) ∧ (trim d.openMarker).length + (trim d.closeMarker).length < w.length

variable {d : Dialect} {q r : Bool} {n k : Nat} {l : Line} {w t tk : Text} {ls as bs out : List Line}

theorem Long.ended (h : Long d l) : Ended l := by
  obtain ⟨w, rfl, hw, -⟩ := h
  refine ⟨w, fun hm => ?_, rfl⟩
  exact absurd (hw '\n' hm) (by decide)

theorem isDirective_of_long {m : Text} (hw : ∀ c ∈ w, isBlank c = false)
    (hm : (trim m).length < w.length) : isDirective m (w ++ ['\n']) = false := by
  cases h : isDirective m (w ++ ['\n']) with
  | false => rfl
  | true =>
    obtain ⟨x, hx, blank⟩ := isDirective_iff.1 h
    obtain ⟨a, as, rfl⟩ :=
      List.exists_cons_of_ne_nil (List.ne_nil_of_length_pos (by omega : 0 < w.length))
    have same : trimStart (a :: as ++ ['\n']) = a :: as ++ ['\n'] :=
      List.dropWhile_cons_of_neg (by simp [hw a List.mem_cons_self])
    rw [same] at hx
    obtain ⟨y, hy⟩ := List.prefix_of_prefix_length_le ⟨x, hx.symm⟩ (List.prefix_append _ ['\n'])
      (Nat.le_of_lt hm)
    rw [← hy, List.append_assoc, List.append_cancel_left_eq] at hx
    cases y with
    | nil =>
      rw [← hy, List.append_nil] at hm
      exact absurd hm (Nat.lt_irrefl _)
    | cons b y =>
      have visible := hw b (by rw [← hy]; simp)
      rw [← hx, List.cons_append, List.head?_cons, Option.all_some, visible] at blank
      cases blank

theorem Long.isMarker (h : Long d l) : d.isMarker l = false := by
  obtain ⟨w, rfl, hw, hlen⟩ := h
  rw [Dialect.isMarker, Dialect.opensGuard, Dialect.closesGuard, isDirective_of_long hw (by omega),
    isDirective_of_long hw (by omega)]
  rfl

theorem Long.append (h : Long d l) (hw : ∀ c ∈ w, isBlank c = false) : Long d (w ++ l) := by
  obtain ⟨x, rfl, hx, hlen⟩ := h
  refine ⟨w ++ x, by rw [List.append_assoc], fun c hc => ?_, by rw [List.length_append]; omega⟩
  exact (List.mem_append.1 hc).elim (hw c) (hx c)

section
variable (hd : d.Ordinary)
include hd

theorem long_quoteLine (q : Bool) : Long d (d.quoteLine q) := by
  refine ⟨d.quotes q, rfl, fun c hc => ?_, ?_⟩
  · rw [List.eq_of_mem_replicate hc]
    exact hd.visible d.quote (by simp [Dialect.roles])
  · rw [Dialect.quotes, List.length_replicate]
    omega

theorem long_endLine : Long d d.endLine :=
  (long_quoteLine hd false).append (w := [d.closeDelim]) fun c hc => by
    rw [List.mem_singleton.1 hc]
    exact hd.visible d.closeDelim (by simp [Dialect.roles])

theorem long_shutLine (q : Bool) (k : Nat) : Long d (d.shutLine q k) := by
  refine ⟨d.quotes q ++ List.replicate k d.closeDelim, ?_, fun c hc => ?_, ?_⟩
  · rw [Dialect.shutLine, List.append_assoc]
  · apply hd.visible c
    rcases List.mem_append.1 hc with h | h <;> rw [List.eq_of_mem_replicate h] <;> simp [Dialect.roles]
  · rw [List.length_append, Dialect.quotes, List.length_replicate]
    omega

theorem Long.call (h : Long d l) (hm : tk ∈ d.callTokens) : Long d (tk ++ d.openDelim :: l) := by
  have visible : ∀ c ∈ [d.openDelim], isBlank c = false := by
    intro c hc
    rw [List.mem_singleton.1 hc]
    exact hd.visible d.openDelim (by simp [Dialect.roles])
  apply (h.append visible).append
  intro c hc
  have word := isWordChar_of_mem (hd.facts.tokens tk hm) hc
  apply Bool.eq_false_iff.2
  intro blank
  rw [isWordChar_of_isBlank blank] at word
  cases word

theorem long_closedCall (hm : tk ∈ d.callTokens) (k : Nat) : ∀ l ∈ d.closedCall tk k, Long d l := by
  refine List.forall_mem_cons.2 ⟨(long_quoteLine hd false).call hd hm, fun l hl => ?_⟩
  rcases List.mem_append.1 hl with h | h
  · rw [List.eq_of_mem_replicate h]
    exact long_quoteLine hd false
  · rw [List.mem_singleton.1 h]
    exact long_endLine hd

/-! ## Their effects -/

theorem carry_quotes : carry d ⟨r, false⟩ n ((d.quotes q ++ t) :: ls) =
    carry d ⟨r ^^ q, false⟩ n (t :: ls) := by
  have even (k : Nat) (t : Text) : carry d ⟨r, false⟩ n ((List.replicate (2 * k) d.quote ++ t) :: ls) =
      carry d ⟨r, false⟩ n (t :: ls) := by
    induction k with
    | zero => rfl
    | succ k ih =>
      rw [show 2 * (k + 1) = 2 * k + 1 + 1 by omega, List.replicate_succ, List.replicate_succ,
        List.cons_append, List.cons_append, carry_quote hd, carry_quote hd, Bool.not_not, ih]
  rw [Dialect.quotes, List.replicate_add, List.append_assoc, even]
  cases q with
  | false =>
    rw [Bool.xor_false]
    rfl
  | true =>
    rw [Bool.xor_true]
    exact carry_quote hd

theorem carry_quoteLine : carry d ⟨r, false⟩ n (d.quoteLine q :: ls) =
    carry d ⟨r ^^ q, false⟩ n ls := by
  rw [Dialect.quoteLine, carry_quotes hd, carry_break hd]

theorem carry_quoteLines (k : Nat) : carry d ⟨r, false⟩ n (List.replicate k (d.quoteLine false) ++ ls) =
    carry d ⟨r, false⟩ n ls := by
  induction k with
  | zero => rfl
  | succ k ih => rw [List.replicate_succ, List.cons_append, carry_quoteLine hd, Bool.xor_false, ih]

theorem carry_endLine_quoted : carry d ⟨true, false⟩ n (d.endLine :: ls) =
    carry d ⟨true, false⟩ n ls := by
  rw [Dialect.endLine, carry_close_quoted hd, carry_quoteLine hd, Bool.xor_false]

theorem carry_endLine : carry d ⟨false, false⟩ n (d.endLine :: ls) =
    if n = 1 then none else carry d ⟨false, false⟩ (n - 1) ls := by
  rw [Dialect.endLine, carry_close hd, carry_quoteLine hd, Bool.xor_false]

theorem carry_shutLine (k : Nat) : carry d ⟨q, false⟩ n (d.shutLine (!q) k :: ls) =
    carry d ⟨true, false⟩ n ls := by
  rw [Dialect.shutLine, carry_quotes hd, Bool.xor_not_self, carry_closes_quoted hd, carry_break hd]

theorem carry_shutLine_closes (hn : 1 ≤ n) (hk : n ≤ k) :
    carry d ⟨q, false⟩ n (d.shutLine q k :: ls) = none := by
  rw [Dialect.shutLine, carry_quotes hd, Bool.xor_self, carry_closes hd hn hk]

theorem noCall_quoteLine (q : Bool) : hasCall d (d.quoteLine q) = false := by
  apply hd.noCall_of_roles
  intro c hc
  rcases List.mem_append.1 hc with h | h
  · exact Or.inl (by rw [List.eq_of_mem_replicate h]; simp [Dialect.roles])
  · exact Or.inr (List.mem_singleton.1 h)

theorem noCall_shutLine (q : Bool) (k : Nat) : hasCall d (d.shutLine q k) = false := by
  apply hd.noCall_of_roles
  intro c hc
  rcases List.mem_append.1 hc with h | h
  · exact Or.inl (by rw [List.eq_of_mem_replicate h]; simp [Dialect.roles])
  · rcases List.mem_append.1 h with h | h
    · exact Or.inl (by rw [List.eq_of_mem_replicate h]; simp [Dialect.roles])
    · exact Or.inr (List.mem_singleton.1 h)

section
variable (hm : tk ∈ d.callTokens) (ht : ¬ d.lineComment <:+: tk)
include hm ht

theorem hasCall_token (t : Text) : hasCall d (tk ++ d.openDelim :: t) := by
  rw [hasCall, callAt?_token hd hm ht]
  rfl

theorem extent_token_of_carry (h : (carry d {} 1 (t :: ls)).isSome) :
    extent d ((tk ++ d.openDelim :: t) :: ls) = 0 := by
  rw [extent, closing?_token hd hm ht, closingFrom_eq_none_iff.2 h]
  rfl

theorem extent_token_of_closes {u : Scan} {l : Line} (h : carry d {} 1 (t :: as) = some (u, n))
    (hl : carry d u n [l] = none) :
    extent d ((tk ++ d.openDelim :: t) :: (as ++ l :: bs)) = as.length + 1 := by
  rw [extent, closing?_token hd hm ht, ← List.cons_append,
    closingFrom_append_cons h (openDepth_eq_none_iff.2 hl)]
  rfl

theorem carry_closedCall (hn : 1 ≤ n) (k : Nat) :
    carry d ⟨r, false⟩ n (d.closedCall tk k ++ ls) = carry d ⟨r, false⟩ n ls := by
  rw [Dialect.closedCall, List.cons_append, List.append_assoc, carry_token hd hm ht, carry_quoteLine hd,
    Bool.xor_false, carry_quoteLines hd, List.singleton_append]
  cases r with
  | true => exact carry_endLine_quoted hd
  | false =>
    rw [if_neg Bool.false_ne_true, carry_endLine hd, if_neg (by omega), Nat.add_sub_cancel]

theorem extent_closedCall (k : Nat) (ls : List Line) :
    extent d (d.closedCall tk k ++ ls) = k + 1 := by
  have through : carry d {} 1 (d.quoteLine false :: List.replicate k (d.quoteLine false)) =
      some (⟨false, false⟩, 1) := by
    rw [← List.append_nil (_ :: _)]
    exact carry_quoteLines hd (k + 1)
  rw [Dialect.closedCall, List.cons_append, List.append_assoc, List.singleton_append,
    extent_token_of_closes hd hm ht through (carry_endLine hd), List.length_replicate]

theorem extent_token_endLine (ls : List Line) :
    extent d ((tk ++ d.openDelim :: d.endLine) :: ls) = 0 := by
  have closes : openDepth d 1 (classify d {} d.endLine) = none :=
    openDepth_eq_none_iff.2 (carry_endLine hd)
  rw [extent, closing?_token hd hm ht, closingFrom_of_none closes]
  rfl

end

end

/-! ## The output of a text -/

/-- The lines `out` come from the lines `ls`, which begin outside a statement, when each statement
is put between its marker lines. -/
def Written (d : Dialect) (ls out : List Line) : Prop :=
  ∃ (whole : List Line) (i : Nat) (bs : List Block), InOrder whole.length i bs ∧
    statementsFrom d 0 i (whole.drop i) = bs.map (fun b => ⟨b.start, b.last⟩) ∧
      ls = whole.drop i ∧ out = (encloseAll d whole bs).drop i

theorem Written.of_fresh {t : Text} (hf : Fresh d t) :
    Written d (splitLines t) (splitLines (guardText d t).output) := by
  refine ⟨splitLines t, 0, blocks d (splitLines t), blocks_inOrder d _, blocks_of_fresh hf, rfl, ?_⟩
  exact splitLines_guardCalls_output (lined_splitLines t)

theorem Written.quiet (h : Written d ls out) (hq : ∀ l ∈ ls, hasCall d l = false) : out = ls := by
  obtain ⟨whole, i, bs, -, hb, rfl, rfl⟩ := h
  have none : statementsFrom d 0 i (whole.drop i) = [] := by
    rw [← List.append_nil (whole.drop i), statementsFrom_quiet hq]
    rfl
  rw [none] at hb
  rw [List.map_eq_nil_iff.1 hb.symm]
  rfl

/-- The first statement of some lines, between its marker lines. -/
theorem Written.call (xs ms ys : List Line) (h : Written d (xs ++ (l :: ms ++ ys)) out)
    (hx : ∀ k ∈ xs, hasCall d k = false) (hl : hasCall d l)
    (he : extent d (l :: ms ++ ys) = ms.length) (hend : ∀ k ∈ l :: ms, Ended k) :
    ∃ (last : Line) (below : List Line), Ended last ∧ Written d ys below ∧
      out = xs ++ (splitLines (openingText d l) ++ (l :: ms ++
        (splitLines (closingText d l last) ++ below))) := by
  obtain ⟨whole, i, bs, order, hb, hw, rfl⟩ := h
  obtain ⟨as, rfl, hlen⟩ : ∃ as : List Line, whole = as ++ (xs ++ (l :: ms ++ ys)) ∧ as.length = i := by
    have short : i < whole.length := by
      have := congrArg List.length hw
      simp only [List.length_append, List.length_cons, List.length_drop] at this
      omega
    exact ⟨whole.take i, by rw [hw, List.take_append_drop], by rw [List.length_take]; omega⟩
  rw [← hw, statementsFrom_quiet hx, List.cons_append, statementsFrom, if_pos hl, ← List.cons_append, he,
    statementsFrom_skip_append] at hb
  cases bs with
  | nil => cases hb
  | cons b bs =>
    rw [List.map_cons, List.cons.injEq, Span.mk.injEq] at hb
    obtain ⟨⟨hstart, hlast⟩, hrest⟩ := hb
    have whole : as ++ (xs ++ (l :: ms ++ ys)) = as ++ xs ++ (l :: ms ++ ys) := by
      rw [List.append_assoc]
    have start : b.start = (as ++ xs).length := by
      rw [List.length_append, hlen, ← hstart]
    have last : b.last + 1 = (as ++ xs).length + (l :: ms).length := by
      rw [List.length_append, List.length_cons, hlen, ← hlast]
      omega
    have first : lineAt (as ++ (xs ++ (l :: ms ++ ys))) b.start = l := by
      rw [whole, lineAt_append_right (by omega), start, Nat.sub_self]
      rfl
    have ended : Ended (lineAt (as ++ (xs ++ (l :: ms ++ ys))) b.last) := by
      rw [whole, lineAt_append_right (by simp only [List.length_cons] at last; omega),
        lineAt_append_left (by omega)]
      exact hend _ (lineAt_mem (by omega))
    have above : between (as ++ (xs ++ (l :: ms ++ ys))) i b.start = xs := by
      rw [between, whole, start, List.take_left, ← hlen, List.drop_left]
    have inside : between (as ++ (xs ++ (l :: ms ++ ys))) b.start (b.last + 1) = l :: ms := by
      rw [between, whole, last, List.take_length_add_append, List.take_left, start, List.drop_left]
    have below : (as ++ (xs ++ (l :: ms ++ ys))).drop (b.last + 1) = ys := by
      rw [whole, last, List.drop_length_add_append, List.drop_left]
    refine ⟨_, _, ended, ⟨_, b.last + 1, bs, order.2.2.2, ?_, below.symm, rfl⟩, ?_⟩
    · rw [below, ← hrest, ← hlast]
      congr 1
      omega
    · rw [encloseAll_drop order, above, breakAt_of_terminator ended.terminator_ne_nil, inside, first]

theorem Written.closedCall (hd : d.Ordinary) (hm : tk ∈ d.callTokens) (ht : ¬ d.lineComment <:+: tk)
    (xs ys : List Line) (h : Written d (xs ++ (d.closedCall tk k ++ ys)) out)
    (hx : ∀ l ∈ xs, hasCall d l = false) : ∃ (first last : Line) (below : List Line), Ended last ∧
      Written d ys below ∧ out = xs ++ (splitLines (openingText d first) ++ (d.closedCall tk k ++
        (splitLines (closingText d first last) ++ below))) := by
  have long := long_closedCall hd hm k
  have len := extent_closedCall hd hm ht k ys
  rw [Dialect.closedCall] at h long len ⊢
  obtain ⟨last, below, ended, rest, e⟩ := h.call xs _ ys hx (hasCall_token hd hm ht _)
    (len.trans (by rw [List.length_append, List.length_replicate, List.length_singleton]))
    fun l hl => (long l hl).ended
  exact ⟨_, last, below, ended, rest, e⟩

theorem Settles.framed {t : Text} (h : Settles d t) :
    ∀ st ∈ statements d (splitLines (guardText d t).output),
      CallGuard.framed d (splitLines (guardText d t).output) st := by
  intro st hst
  cases hf : CallGuard.framed d (splitLines (guardText d t).output) st with
  | true => rfl
  | false =>
    obtain ⟨b, hb, -⟩ := (exists_block_iff hst).2 hf
    have none : blocks d (splitLines (guardText d t).output) = [] := h.1
    rw [none] at hb
    cases hb

/-- What comes of long lines when guarding is idempotent on texts without markers. -/
theorem exists_written (hs : ∀ t, Fresh d t → Settles d t) (ls : List Line) (hl : ∀ l ∈ ls, Long d l) :
    ∃ out, Lined out ∧ Written d ls out ∧ ∀ st ∈ statements d out, framed d out st := by
  have lined : Lined ls := by
    rw [← List.append_nil ls]
    exact .append (fun l h => (hl l h).ended) .nil
  have split := splitLines_joinLines lined
  have fresh : Fresh d (joinLines ls) := by
    intro l hm
    rw [split] at hm
    exact (hl l hm).isMarker
  have written := Written.of_fresh fresh
  rw [split] at written
  exact ⟨_, lined_splitLines _, written, (hs _ fresh).framed⟩

end CallGuard
