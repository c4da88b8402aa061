import CallGuard.Proofs.Prefixes
import Mathlib.Algebra.BigOperators.Group.List.Basic
import Mathlib.Algebra.GroupWithZero.Nat
set_option autoImplicit false

/-!
# Passes one after the other

Whatever markers a text has, each pass visits the statements that the first one visits, and a
statement that gets a guard in one pass is hugged by its markers from then on: they stand next to it
and no other statement reaches them. So the passes together write at most one guard for each
statement.
-/
namespace CallGuard

variable {d : Dialect} {ls : List Line} {bs : List Block} {i n s e : Nat} {st : Span}

def Clear (d : Dialect) (ls : List Line) (i : Nat) : Prop :=
  ∀ st ∈ statements d ls, i < st.start ∨ st.last < i

/-- An open marker right above the statement and a close marker right below it, out of reach of the
other statements. -/
structure Hugged (d : Dialect) (ls : List Line) (st : Span) : Prop where
  pos : 0 < st.start
  lt : st.last + 1 < ls.length
  opens : d.opensGuard (lineAt ls (st.start - 1))
  closes : d.closesGuard (lineAt ls (st.last + 1))
  above : Clear d ls (st.start - 1)
  below : Clear d ls (st.last + 1)

theorem Hugged.framed (h : Hugged d ls st) (hle : st.start ≤ st.last) : framed d ls st := by
  have hlt := h.lt
  obtain ⟨p, hp⟩ := Nat.exists_eq_add_of_lt h.pos
  have hp : st.start = p + 1 := by omega
  have opens := h.opens
  rw [hp, Nat.add_sub_cancel] at opens
  have above : linesAbove ls st.start = lineAt ls p :: (ls.take p).reverse := by
    rw [linesAbove_eq (by omega), hp, List.take_succ_eq_append_getElem (by omega : p < ls.length),
      List.reverse_append, lineAt_eq_getElem (by omega)]
    rfl
  have below : ls.drop (st.last + 1) = lineAt ls (st.last + 1) :: ls.drop (st.last + 1 + 1) := by
    rw [List.drop_eq_getElem_cons hlt, lineAt_eq_getElem hlt]
  rw [CallGuard.framed, above, below, hasOpener_opens_zero opens, hasCloser_closes_zero h.closes]
  rfl

/-! ## One statement enclosed -/

theorem look_lineAt_breakAt (s e i : Nat) (ls : List Line) :
    d.look (lineAt (breakAt s e ls) i) = d.look (lineAt ls i) := by
  rcases preserved_breakAt s e i ls with h | ⟨-, k, h⟩
  · rw [h]
  · rw [h, look_append_blank fun c hc => isBlank_of_mem_lineBreak hc]

section
variable (hd : d.Neutral) (hl : Lined ls) (hst : ⟨s, e⟩ ∈ statements d ls)
include hd hl hst

theorem clear_enclose {j : Nat} (h : Clear d ls j) :
    Clear d (enclose d s e ls) (shiftLine 1 1 s e j) := by
  intro moved hmoved
  rw [statements_enclose_neutral hd hl hst] at hmoved
  obtain ⟨other, hother, rfl⟩ := List.mem_map.1 hmoved
  exact (h other hother).imp (shiftLine_lt (start_le_last hst)) (shiftLine_lt (start_le_last hst))

theorem clear_enclose_markers :
    Clear d (enclose d s e ls) s ∧ Clear d (enclose d s e ls) (e + 2) := by
  have hs : s ≤ e := start_le_last hst
  have sides : ∀ moved ∈ statements d (enclose d s e ls),
      (s < moved.start ∨ moved.last < s) ∧ (e + 2 < moved.start ∨ moved.last < e + 2) := by
    intro moved hmoved
    rw [statements_enclose_neutral hd hl hst] at hmoved
    obtain ⟨other, hother, rfl⟩ := List.mem_map.1 hmoved
    have hle := start_le_last hother
    simp only [Span.shift]
    rcases statements_apart hother hst with rfl | h | h
    · rw [shiftLine_inside (Nat.le_refl s) hs, shiftLine_inside hs (Nat.le_refl e)]
      omega
    · have h : other.last < s := h
      rw [shiftLine_above h]
      omega
    · have h : e < other.start := h
      rw [shiftLine_below (by omega) h]
      omega
  exact ⟨fun moved hmoved => (sides moved hmoved).1, fun moved hmoved => (sides moved hmoved).2⟩

theorem hugged_enclose_self : Hugged d (enclose d s e ls) ⟨s + 1, e + 1⟩ := by
  have hs : s ≤ e := start_le_last hst
  have he : e < ls.length := last_lt hst
  obtain ⟨clear, clear'⟩ := clear_enclose_markers hd hl hst
  refine ⟨Nat.succ_pos s, ?_, ?_, ?_, clear, clear'⟩
  · rw [hd.unbroken.length_enclose hs he]
    change e + 2 < _
    omega
  · change d.opensGuard (lineAt (enclose d s e ls) s)
    rw [lineAt_enclose_opener hd.unbroken hs he]
    exact opensGuard_openingText d _
  · change d.closesGuard (lineAt (enclose d s e ls) (e + 2))
    rw [lineAt_enclose_closer hd.unbroken hs he]
    exact closesGuard_closingText d _ _

/-- A statement enclosed does not come between another one and its markers. -/
theorem hugged_enclose_other (h : Hugged d ls st) (hmem : st ∈ statements d ls) (hne : st ≠ ⟨s, e⟩) :
    Hugged d (enclose d s e ls) (st.shift 1 1 s e) := by
  have hs : s ≤ e := start_le_last hst
  have he : e < ls.length := last_lt hst
  have hle := start_le_last hmem
  have pos := h.pos
  have hlt := h.lt
  have above : shiftLine 1 1 s e st.start - 1 = shiftLine 1 1 s e (st.start - 1) := by
    rcases statements_apart hmem hst with e | hlast | hlast
    · exact absurd e hne
    · have hlast : st.last < s := hlast
      rw [shiftLine_above (by omega), shiftLine_above (by omega)]
    · have hlast : e < st.start := hlast
      have clear : st.start - 1 < s ∨ e < st.start - 1 := h.above _ hst
      rw [shiftLine_below (by omega) hlast, shiftLine_below (by omega) (by omega)]
      omega
  have below : shiftLine 1 1 s e st.last + 1 = shiftLine 1 1 s e (st.last + 1) := by
    rcases statements_apart hmem hst with e | hlast | hlast
    · exact absurd e hne
    · have hlast : st.last < s := hlast
      have clear : st.last + 1 < s ∨ e < st.last + 1 := h.below _ hst
      rw [shiftLine_above hlast, shiftLine_above (by omega)]
    · have hlast : e < st.start := hlast
      rw [shiftLine_below (by omega) (by omega), shiftLine_below (by omega) (by omega)]
  have look (j : Nat) : d.look (lineAt (enclose d s e ls) (shiftLine 1 1 s e j)) =
      d.look (lineAt ls j) := by
    rw [lineAt_enclose hd.unbroken hs he, look_lineAt_breakAt]
  have far {j : Nat} (hj : j < ls.length) : shiftLine 1 1 s e j < (enclose d s e ls).length := by
    rw [hd.unbroken.length_enclose hs he]
    unfold shiftLine
    split_ifs <;> omega
  refine ⟨?_, ?_, ?_, ?_, ?_, ?_⟩
  · change 0 < shiftLine 1 1 s e st.start
    exact Nat.lt_of_le_of_lt (Nat.zero_le _) (shiftLine_lt hs pos)
  · change shiftLine 1 1 s e st.last + 1 < _
    rw [below]
    exact far hlt
  · change d.opensGuard (lineAt _ (shiftLine 1 1 s e st.start - 1))
    rw [above]
    exact (congrArg Prod.fst (look (st.start - 1))).trans h.opens
  · change d.closesGuard (lineAt _ (shiftLine 1 1 s e st.last + 1))
    rw [below]
    exact (congrArg (fun x => x.2.1) (look (st.last + 1))).trans h.closes
  · change Clear d _ (shiftLine 1 1 s e st.start - 1)
    rw [above]
    exact clear_enclose hd hl hst h.above
  · change Clear d _ (shiftLine 1 1 s e st.last + 1)
    rw [below]
    exact clear_enclose hd hl hst h.below

end

/-- All blocks enclosed: a statement is hugged if it was before or if it is one of theirs. -/
theorem hugged_encloseAll (hd : d.Neutral) (hl : Lined ls)
    (hb : ∀ b ∈ bs, ⟨b.start, b.last⟩ ∈ statements d ls) (h : InOrder ls.length i bs)
    (hmem : st ∈ statements d ls) (hst : Hugged d ls st ∨ ∃ b ∈ bs, b.start = st.start) :
    Hugged d (encloseAll d ls bs) (st.moved bs) := by
  induction bs generalizing i with
  | nil => exact hst.resolve_right (by simp)
  | cons b bs ih =>
    have hb' := fun c hc => hb c (List.mem_cons_of_mem b hc)
    have lined := lined_encloseAll (d := d) hl h.2.2.2
    have moved := statements_encloseAll hd hl hb' h.2.2.2
    have here := head_mem_statements (hb b List.mem_cons_self) h
    have there : st.moved bs ∈ (statements d ls).map (Span.moved bs) := List.mem_map_of_mem hmem
    rw [← moved] at here there
    have fixed : Span.moved bs ⟨b.start, b.last⟩ = ⟨b.start, b.last⟩ :=
      moved_eq_self h.2.1 h.2.2.2
    rw [encloseAll, moved_cons h]
    by_cases e : b.start = st.start
    · obtain rfl := statement_ext (hb b List.mem_cons_self) hmem e
      have self := hugged_enclose_self hd lined here
      rw [fixed, Span.shift, shiftLine_inside (Nat.le_refl _) h.2.1,
        shiftLine_inside h.2.1 (Nat.le_refl _)]
      exact self
    · have later : Hugged d ls st ∨ ∃ c ∈ bs, c.start = st.start := by
        apply hst.imp_right
        intro hc
        obtain ⟨c, hc, hs⟩ := hc
        exact ⟨c, (List.mem_cons.1 hc).resolve_left fun heq => e (heq ▸ hs), hs⟩
      have rest := ih hb' h.2.2.2 later
      apply hugged_enclose_other hd lined here rest there
      intro heq
      rw [← fixed] at heq
      exact e (movedLine_inj h.2.2.2 (congrArg Span.start heq)).symm

/-! ## Passes -/

def passText (d : Dialect) (t : Text) : Nat → Text
  | 0 => t
  | k + 1 => (guardText d (passText d t k)).output

/-- Where a line of the text stands in the text that pass `k` reads. -/
def passLine (d : Dialect) (t : Text) (i : Nat) : Nat → Nat
  | 0 => i
  | k + 1 => movedLine (guardText d (passText d t k)).blocks (passLine d t i k)

def passSpan (d : Dialect) (t : Text) (k : Nat) (st : Span) : Span :=
  ⟨passLine d t st.start k, passLine d t st.last k⟩

theorem passText_output (t : Text) (k : Nat) :
    passText d (guardText d t).output k = passText d t (k + 1) := by
  induction k with
  | zero => rfl
  | succ k ih =>
    rw [passText, ih]
    rfl

theorem guardPasses_eq (t : Text) :
    guardPasses d n t = (List.range n).map fun k => guardText d (passText d t k) := by
  induction n generalizing t with
  | zero => rfl
  | succ n ih =>
    rw [guardPasses, ih, List.range_succ_eq_map, List.map_cons, List.map_map]
    simp only [passText_output]
    rfl

theorem splitLines_passText_succ (t : Text) (k : Nat) :
    splitLines (passText d t (k + 1)) = encloseAll d (splitLines (passText d t k))
      (blocks d (splitLines (passText d t k))) :=
  splitLines_guardCalls_output (lined_splitLines _)

theorem statements_passText (hd : d.Neutral) (t : Text) (k : Nat) :
    statements d (splitLines (passText d t k)) =
      (statements d (splitLines t)).map (passSpan d t k) := by
  induction k with
  | zero =>
    have id : passSpan d t 0 = id := rfl
    rw [id, List.map_id]
    rfl
  | succ k ih =>
    rw [splitLines_passText_succ, statements_encloseAll hd (lined_splitLines _)
      (fun b hb => block_mem_statements hb) (blocks_inOrder d _), ih, List.map_map]
    rfl

theorem passSpan_mem (hd : d.Neutral) {t : Text} (k : Nat) (hst : st ∈ statements d (splitLines t)) :
    passSpan d t k st ∈ statements d (splitLines (passText d t k)) := by
  rw [statements_passText hd]
  exact List.mem_map_of_mem hst

theorem preserved_passText (hd : d.Neutral) (t : Text) (i k : Nat) :
    Preserved (lineAt (splitLines t) i)
      (lineAt (splitLines (passText d t k)) (passLine d t i k)) := by
  induction k with
  | zero => exact Or.inl rfl
  | succ k ih =>
    rw [splitLines_passText_succ]
    exact ih.trans (lineAt_encloseAll hd.unbroken (blocks_inOrder d _) _)

theorem hugged_passText (hd : d.Neutral) {t : Text} {k m : Nat} (hkm : k < m)
    (hst : st ∈ statements d (splitLines t))
    (hb : ∃ b ∈ (guardText d (passText d t k)).blocks, b.start = passLine d t st.start k) :
    Hugged d (splitLines (passText d t m)) (passSpan d t m st) := by
  have next (j : Nat) (h : Hugged d (splitLines (passText d t j)) (passSpan d t j st) ∨
      ∃ b ∈ blocks d (splitLines (passText d t j)), b.start = passLine d t st.start j) :
      Hugged d (splitLines (passText d t (j + 1))) (passSpan d t (j + 1) st) := by
    rw [splitLines_passText_succ]
    exact hugged_encloseAll hd (lined_splitLines _) (fun b hb => block_mem_statements hb)
      (blocks_inOrder d _) (passSpan_mem hd j hst) h
  induction m, hkm using Nat.le_induction with
  | base => exact next k (Or.inr hb)
  | succ m _ ih => exact next m (Or.inl ih)

def wrapped (d : Dialect) (t : Text) (st : Span) (k : Nat) : Bool :=
  !framed d (splitLines (passText d t k)) (passSpan d t k st)

theorem wrapped_iff (hd : d.Neutral) {t : Text} {k : Nat} (hst : st ∈ statements d (splitLines t)) :
    wrapped d t st k ↔
      ∃ b ∈ (guardText d (passText d t k)).blocks, b.start = passLine d t st.start k := by
  rw [wrapped, Bool.not_eq_true']
  exact (exists_block_iff (passSpan_mem hd k hst)).symm

theorem framed_of_wrapped (hd : d.Neutral) {t : Text} {k m : Nat} (hkm : k < m)
    (hst : st ∈ statements d (splitLines t)) (h : wrapped d t st k) :
    framed d (splitLines (passText d t m)) (passSpan d t m st) :=
  (hugged_passText hd hkm hst ((wrapped_iff hd hst).1 h)).framed
    (start_le_last (passSpan_mem hd m hst))

theorem count_eq_countP (hd : d.Neutral) (t : Text) (k : Nat) :
    (guardText d (passText d t k)).count =
      (statements d (splitLines t)).countP (wrapped d t · k) := by
  have some : ∀ st ∈ statements d (splitLines (passText d t k)),
      (block? d (splitLines (passText d t k)) st).isSome =
        !framed d (splitLines (passText d t k)) st := by
    intro st hst
    have guarded := verdict_guarded_iff hst
    unfold block?
    cases hv : verdict d (splitLines (passText d t k)) st.start with
    | guarded i j => simp [guarded.1 ⟨i, j, hv⟩]
    | unguarded r =>
      have : framed d (splitLines (passText d t k)) st = false := by
        rw [← Bool.not_eq_true, ← guarded, hv]
        simp
      simp [this]
  change (blocks d (splitLines (passText d t k))).length = _
  rw [blocks, List.length_filterMap_eq_countP, List.countP_congr fun st hst => by rw [some st hst],
    statements_passText hd, List.countP_map]
  rfl

theorem countP_or_of_disjoint {p q : Span → Bool} {sts : List Span}
    (h : ∀ st ∈ sts, q st → p st = false) :
    (sts.countP fun st => p st || q st) = sts.countP p + sts.countP q := by
  induction sts with
  | nil => rfl
  | cons st sts ih =>
    have here := h st List.mem_cons_self
    rw [List.countP_cons, List.countP_cons, List.countP_cons,
      ih fun x hx => h x (List.mem_cons_of_mem st hx)]
    cases hq : q st with
    | false =>
      rw [Bool.or_false, if_neg Bool.false_ne_true]
      omega
    | true =>
      rw [here hq, if_neg Bool.false_ne_true, Bool.or_true]
      omega

/-- No statement is wrapped twice. -/
theorem sum_counts_eq (hd : d.Neutral) (t : Text) (n : Nat) :
    ((guardPasses d n t).map Guarding.count).sum =
      (statements d (splitLines t)).countP fun st => (List.range n).any (wrapped d t st) := by
  rw [guardPasses_eq, List.map_map]
  induction n with
  | zero => simp
  | succ n ih =>
    rw [List.range_succ, List.map_append, List.sum_append, ih]
    have apart : ∀ st ∈ statements d (splitLines t), wrapped d t st n →
        (List.range n).any (wrapped d t st) = false := by
      intro st hst hn
      apply List.any_eq_false.2
      intro k hk hw
      have := framed_of_wrapped hd (List.mem_range.1 hk) hst hw
      rw [wrapped, this] at hn
      cases hn
    simp only [List.map_singleton, List.sum_singleton, Function.comp_apply, List.any_append,
      List.any_cons, List.any_nil, Bool.or_false]
    rw [count_eq_countP hd, countP_or_of_disjoint apart]

/-- A pass that adds nothing is the last one that reads a new text. -/
theorem passText_stable {t : Text} {k : Nat} (h : (guardText d (passText d t k)).blocks = []) (j : Nat) :
    passText d t (k + j) = passText d t k := by
  induction j with
  | zero => rfl
  | succ j ih =>
    change (guardText d (passText d t (k + j))).output = _
    rw [ih, guardText_output_of_no_blocks h]

theorem blocks_eq_nil_of_le (hd : d.Neutral) (t : Text)
    (h : (statements d (splitLines t)).length ≤ n) :
    (guardText d (passText d t n)).blocks = [] := by
  by_contra hn
  -- otherwise each of the passes so far has added a block
  have each : ∀ c ∈ (guardPasses d (n + 1) t).map Guarding.count, 1 ≤ c := by
    rw [guardPasses_eq, List.map_map]
    intro c hc
    obtain ⟨k, hk, rfl⟩ := List.mem_map.1 hc
    refine List.length_pos_iff.2 fun hk0 => hn ?_
    have hkn : k ≤ n := Nat.le_of_lt_succ (List.mem_range.1 hk)
    have stable := passText_stable hk0 (n - k)
    rw [Nat.add_sub_cancel' hkn] at stable
    rw [stable]
    exact hk0
  have lower := List.length_le_sum_of_one_le _ each
  have upper := sum_counts_eq hd t (n + 1)
  have most := List.countP_le_length (p := fun st => (List.range (n + 1)).any (wrapped d t st))
    (l := statements d (splitLines t))
  rw [guardPasses_eq, List.length_map, List.length_map, List.length_range] at lower
  rw [guardPasses_eq] at upper
  omega

/-- Each pass has the statements of the text, moved, and keeps their lines. A statement that got a
guard in one pass is guarded in all later ones. So the passes together add at most one block for
each statement, and after as many passes as there are statements a further one adds nothing. -/
theorem guardPasses_converge (hd : d.Neutral) (t : Text) (n : Nat) :
    guardPasses d n t = (List.range n).map (fun k => guardText d (passText d t k)) ∧
    (∀ k, statements d (splitLines (passText d t k)) =
      (statements d (splitLines t)).map (passSpan d t k)) ∧
    (∀ i k, Preserved (lineAt (splitLines t) i)
      (lineAt (splitLines (passText d t k)) (passLine d t i k))) ∧
    (∀ st ∈ statements d (splitLines t), ∀ k m, k < m →
      (∃ b ∈ (guardText d (passText d t k)).blocks, b.start = passLine d t st.start k) →
        ∃ above below, verdict d (splitLines (passText d t m)) (passLine d t st.start m) =
          .guarded above below) ∧
    ((guardPasses d n t).map Guarding.count).sum ≤ (statements d (splitLines t)).length ∧
    ((statements d (splitLines t)).length ≤ n →
      (guardText d (passText d t n)).blocks = [] ∧
        (guardText d (passText d t n)).output = passText d t n) := by
  refine ⟨guardPasses_eq t, statements_passText hd t, fun i k => preserved_passText hd t i k, ?_, ?_,
    fun h => ?_⟩
  · intro st hst k m hkm hb
    have hw := framed_of_wrapped hd hkm hst ((wrapped_iff hd hst).2 hb)
    exact (verdict_guarded_iff (passSpan_mem hd m hst)).2 hw
  · rw [sum_counts_eq hd]
    exact List.countP_le_length
  · have none := blocks_eq_nil_of_le hd t h
    exact ⟨none, guardText_output_of_no_blocks none⟩

/-- A text that takes two passes: the guard around the first call hides the marker inside it from the
second, whose search then ends at the declaration. -/
def nestedText : Text := "print(\nfunc f()\n#if DEBUG\n1)\nprint(2)\n#endif\n".toList

theorem guardPasses_converge_nestedText :
    (guardPasses .swift 3 nestedText).map Guarding.count = [1, 1, 0] ∧
    ((guardPasses .swift 3 nestedText).map Guarding.count).sum ≤
      (statements .swift (splitLines nestedText)).length ∧
    (∃ above below, verdict .swift (splitLines (passText .swift nestedText 2))
      (passLine .swift nestedText 0 2) = .guarded above below) ∧
    (guardText .swift (passText .swift nestedText 2)).blocks = [] ∧
    (guardText .swift (passText .swift nestedText 2)).output = passText .swift nestedText 2 := by
  obtain ⟨-, -, -, later, sum, -⟩ := guardPasses_converge Dialect.swift_neutral nestedText 3
  obtain ⟨-, -, -, -, -, last⟩ := guardPasses_converge Dialect.swift_neutral nestedText 2
  have first : (⟨0, 3⟩ : Span) ∈ statements .swift (splitLines nestedText) := by decide +kernel
  have block : ∃ b ∈ (guardText .swift (passText .swift nestedText 0)).blocks, b.start = 0 := by
    decide +kernel
  exact ⟨by decide +kernel, sum, later ⟨0, 3⟩ first 0 2 (by decide) block, last (by decide +kernel)⟩

end CallGuard
