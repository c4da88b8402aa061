import CallGuard.Proofs.Enclosure
import CallGuard.Proofs.Quiet
set_option autoImplicit false

/-!
# Breaks at the end of a text

Inert text after a line changes no region, no call and no nesting before it. Where line breaks have
no part in the lexical rules, a break after the last line of a text leaves its statements alone.
-/
namespace CallGuard

/-- Line breaks have no part in the lexical rules. -/
structure Dialect.BreakFree (d : Dialect) : Prop where
  tokens : ∀ token ∈ d.callTokens, isIdentifier token
  roles : ∀ c ∈ d.roles, c ≠ '\r' ∧ c ≠ '\n'
  comment : ∀ c ∈ d.lineComment, c ≠ '\r' ∧ c ≠ '\n'

def IsBreak (v : Text) : Prop := ∀ c ∈ v, c = '\r' ∨ c = '\n'

theorem isBreak_gap (first last : Line) : IsBreak (gap first last) := by
  intro c hc
  unfold gap at hc
  split at hc
  · rcases lineBreak_cases first with h | h <;> rw [h] at hc <;> simp_all
  · cases hc

/-- A break given to a line goes to the end of the text. -/
theorem exists_breakAt {ls : List Line} {s e : Nat} (hl : Lined ls) (he : e < ls.length) :
    ∃ (ks : List Line) (l : Line) (v : Text),
      IsBreak v ∧ ls = ks ++ [l] ∧ breakAt s e ls = ks ++ [l ++ v] := by
  by_cases ht : terminator (lineAt ls e) = []
  · have hlen := hl.eq_last he ht
    have whole : ls = ls.take e ++ [lineAt ls e] := by
      conv_lhs => rw [← List.take_append_drop e ls, List.drop_eq_getElem_cons he,
        List.drop_eq_nil_of_le (by omega), ← lineAt_eq_getElem he]
    refine ⟨ls.take e, lineAt ls e, gap (lineAt ls s) (lineAt ls e), isBreak_gap _ _, whole, ?_⟩
    rw [breakAt, List.set_eq_take_append_cons_drop, if_pos he, List.drop_eq_nil_of_le (by omega)]
  · have hne : ls ≠ [] := List.ne_nil_of_length_pos (by omega)
    refine ⟨ls.dropLast, ls.getLast hne, [], by simp [IsBreak], ?_, ?_⟩
    · rw [List.dropLast_concat_getLast]
    · rw [breakAt_of_terminator ht, List.append_nil, List.dropLast_concat_getLast]

variable {d : Dialect} {v : Text}

theorem Dialect.BreakFree.escape_ne (hd : d.BreakFree) : d.escape ≠ '\n' :=
  (hd.roles d.escape (by simp [Dialect.roles])).2

theorem ne_nil_of_isIdentifier {t : Text} (h : isIdentifier t) : t ≠ [] := by
  rintro rfl
  cases h

theorem Dialect.BreakFree.token_ne_nil (hd : d.BreakFree) : ∀ token ∈ d.callTokens, token ≠ [] :=
  fun token ht => ne_nil_of_isIdentifier (hd.tokens token ht)

/-! ## Inert text -/

/-- Text that has no part in calls, nesting or regions. -/
def Dialect.Inert (d : Dialect) (v : Text) : Prop :=
  ∀ c ∈ v, isWordChar c = false ∧ c ∉ d.roles ∧ c ∉ d.lineComment

theorem isWordChar_of_mem {t : Text} {c : Char} (ht : isIdentifier t) (hc : c ∈ t) :
    isWordChar c := by
  cases t with
  | nil => cases hc
  | cons a t =>
    obtain ⟨ha, hall⟩ := Bool.and_eq_true_iff.1 ht
    rcases List.mem_cons.1 hc with rfl | hc
    · rcases Bool.or_eq_true_iff.1 ha with h | h <;> simp [isWordChar, h]
    · exact List.all_eq_true.1 hall c hc

theorem Dialect.BreakFree.inert (hd : d.BreakFree) (hv : IsBreak v) : d.Inert v := by
  intro c hc
  have notMem {l : List Char} (h : ∀ a ∈ l, a ≠ '\r' ∧ a ≠ '\n') : c ∉ l := fun hm =>
    (hv c hc).elim (h c hm).1 (h c hm).2
  refine ⟨?_, notMem hd.roles, notMem hd.comment⟩
  rcases hv c hc with rfl | rfl <;> decide

theorem isPrefixOf_append_of_notMem {p t : Text} (h : ∀ c ∈ p, c ∉ v) :
    p.isPrefixOf (t ++ v) = p.isPrefixOf t := by
  induction p generalizing t with
  | nil => rfl
  | cons c p ih =>
    have tail := fun t => @ih t fun a ha => h a (List.mem_cons_of_mem c ha)
    cases t with
    | nil =>
      cases v with
      | nil => rfl
      | cons b v =>
        have hb : c ≠ b := fun e => h c List.mem_cons_self (e ▸ List.mem_cons_self)
        simp [List.isPrefixOf, hb]
    | cons b t =>
      rw [List.cons_append, List.isPrefixOf, List.isPrefixOf, tail]

theorem step_append_inert (hv : d.Inert v) (s : Scan) (c : Char) (cs : Text) :
    s.step d c (cs ++ v) = s.step d c cs := by
  have same : d.lineComment.isPrefixOf (c :: cs ++ v) = d.lineComment.isPrefixOf (c :: cs) :=
    isPrefixOf_append_of_notMem fun a ha hm => (hv a hm).2.2 ha
  rw [Scan.step, ← List.cons_append, same, Scan.step]

theorem exists_classify_append (hv : d.Inert v) (s : Scan) (l : Line) :
    ∃ hs : List Glyph, hs.map Glyph.char = v ∧ classify d s (l ++ v) = classify d s l ++ hs := by
  induction l generalizing s with
  | nil => exact ⟨classify d s v, map_char_classify d s v, rfl⟩
  | cons c cs ih =>
    rw [List.cons_append, classify, classify, step_append_inert hv]
    split
    · rename_i r u _
      obtain ⟨hs, hm, e⟩ := ih u
      exact ⟨hs, hm, by rw [e, List.cons_append]⟩
    · exact ⟨v.map fun c => ⟨c, .comment⟩, by simp [Function.comp_def], by simp⟩

section
variable {hs : List Glyph} (hv : d.Inert v) (hm : hs.map Glyph.char = v)
include hv hm

theorem openDepth_inert (n : Nat) : openDepth d n hs = some n :=
  openDepth_of_notMem (fun g hg => (hv g.char (hm ▸ List.mem_map_of_mem hg)).2.1) n

theorem openDepth_append_inert (n : Nat) (gs : List Glyph) :
    openDepth d n (gs ++ hs) = openDepth d n gs := by
  induction gs generalizing n with
  | nil => exact openDepth_inert hv hm n
  | cons g gs ih => rw [List.cons_append, openDepth, openDepth, ih, ih, ih]

theorem opensNext_append_inert (gs : List Glyph) : opensNext d (gs ++ hs) = opensNext d gs := by
  induction gs with
  | nil =>
    change (skipBlanks hs).head?.any _ = false
    cases hh : (skipBlanks hs).head? with
    | none => rfl
    | some g =>
      have mem := mem_of_mem_skipBlanks (List.mem_of_head? hh)
      exact (notDelim_of_notMem (hv g.char (hm ▸ List.mem_map_of_mem mem)).2.1).1
  | cons g gs ih =>
    simp only [opensNext, List.cons_append, skipBlanks] at ih ⊢
    split
    · exact ih
    · rfl

theorem callFrom_inert (before : Option Char) : callFrom d before hs = none := by
  have none : ∀ (before : Option Char) (ks : List Glyph), (∀ g ∈ ks, g ∈ hs) →
      callFrom d before ks = .none := by
    intro before ks hk
    induction ks generalizing before with
    | nil => rfl
    | cons k ks ih =>
      have char := (hv k.char (hm ▸ List.mem_map_of_mem (hk k List.mem_cons_self))).1
      have head : isCallHead d before k ks = false := by simp [isCallHead, char]
      rw [callFrom, head, ih _ fun g hg => hk g (List.mem_cons_of_mem k hg)]
      rfl
  exact none before hs fun _ h => h

section
variable (ht : ∀ token ∈ d.callTokens, isIdentifier token)
include ht

theorem isCallHead_append_inert (before : Option Char) (g : Glyph) (gs : List Glyph) :
    isCallHead d before g (gs ++ hs) = isCallHead d before g gs := by
  unfold isCallHead
  congr 1
  rw [Bool.eq_iff_iff, List.any_eq_true, List.any_eq_true]
  refine exists_congr fun token => and_congr_right fun htoken => ?_
  have same : token.isPrefixOf ((g :: gs ++ hs).map Glyph.char) =
      token.isPrefixOf ((g :: gs).map Glyph.char) := by
    rw [List.map_append, hm]
    apply isPrefixOf_append_of_notMem
    intro c hc hcv
    have word := isWordChar_of_mem (ht token htoken) hc
    rw [(hv c hcv).1] at word
    cases word
  rw [← List.cons_append, same, Bool.and_eq_true, Bool.and_eq_true]
  apply and_congr_right
  intro hp
  have len := (List.isPrefixOf_iff_prefix.1 hp).length_le
  rw [List.length_map] at len
  rw [List.drop_append_of_le_length len, opensNext_append_inert hv hm]

theorem callFrom_append_inert (before : Option Char) (gs : List Glyph) :
    callFrom d before (gs ++ hs) = callFrom d before gs := by
  induction gs generalizing before with
  | nil => exact callFrom_inert hv hm before
  | cons g gs ih => rw [List.cons_append, callFrom, callFrom, isCallHead_append_inert hv hm ht, ih]

end

end

section
variable (ht : ∀ token ∈ d.callTokens, isIdentifier token) (hv : d.Inert v)
include ht hv

theorem callAt?_append_inert (l : Line) : callAt? d (l ++ v) = callAt? d l := by
  obtain ⟨hs, hm, e⟩ := exists_classify_append hv {} l
  rw [callAt?, e, callFrom_append_inert hv hm ht, callAt?]

theorem callDepth?_append_inert (l : Line) : callDepth? d (l ++ v) = callDepth? d l := by
  obtain ⟨hs, hm, e⟩ := exists_classify_append hv {} l
  have plain {ks : List Glyph} (hk : ∀ g ∈ ks, g ∈ hs) : ∀ g ∈ ks, g.char ∉ d.roles :=
    fun g hg => (hv g.char (hm ▸ List.mem_map_of_mem (hk g hg))).2.1
  have first (k n : Nat) : depthAfter d n (hs.take k) = n :=
    depthAfter_of_notMem (plain fun g hg => List.mem_of_mem_take hg) n
  have rest (k n : Nat) : openDepth d n (hs.drop k) = some n :=
    openDepth_of_notMem (plain fun g hg => List.mem_of_mem_drop hg) n
  simp only [callDepth?, callAt?_append_inert ht hv, e, List.take_append, List.drop_append,
    openDepth_append, depthAfter_append, first, rest, Option.bind_fun_some]

theorem hasCall_append_inert (l : Line) : hasCall d (l ++ v) = hasCall d l := by
  rw [hasCall, callAt?_append_inert ht hv, hasCall]

end

/-! ## A break after the last line -/

theorem closingFrom_append_break (hd : d.BreakFree) (hv : IsBreak v) (s : Scan) (n : Nat)
    (ls : List Line) (l : Line) :
    closingFrom d s n (ls ++ [l ++ v]) = closingFrom d s n (ls ++ [l]) := by
  induction ls generalizing s n with
  | nil =>
    obtain ⟨hs, hm, e⟩ := exists_classify_append (hd.inert hv) s l
    simp only [List.nil_append, closingFrom, e, openDepth_append_inert (hd.inert hv) hm]
  | cons a ls ih =>
    rw [List.cons_append, List.cons_append, closingFrom, closingFrom]
    simp only [ih]

theorem closing?_append_break (hd : d.BreakFree) (hv : IsBreak v) (ls : List Line) (l : Line) :
    closing? d (ls ++ [l ++ v]) = closing? d (ls ++ [l]) := by
  cases ls with
  | nil =>
    have head := callDepth?_append_inert hd.tokens (hd.inert hv) l
    rw [List.nil_append, List.nil_append]
    cases hn : callDepth? d l with
    | none => rw [closing?_of_none hn, closing?_of_none (head.trans hn)]
    | some n =>
      rw [closing?_of_some hn, closing?_of_some (head.trans hn)]
      rfl
  | cons a ls =>
    rw [List.cons_append, List.cons_append, closing?, closing?]
    simp only [closingFrom_append_break hd hv]

theorem statementsFrom_append_break (hd : d.BreakFree) (hv : IsBreak v) (k i : Nat)
    (ls : List Line) (l : Line) :
    statementsFrom d k i (ls ++ [l ++ v]) = statementsFrom d k i (ls ++ [l]) := by
  induction ls generalizing k i with
  | nil =>
    cases k with
    | succ k => rfl
    | zero =>
      simp only [List.nil_append, statementsFrom, hasCall_append_inert hd.tokens (hd.inert hv)]
      split
      · have same : closing? d [l ++ v] = closing? d [l] := closing?_append_break hd hv [] l
        rw [extent, same, extent]
      · rfl
  | cons a ls ih =>
    cases k with
    | succ k => exact ih k (i + 1)
    | zero =>
      have same : extent d (a :: (ls ++ [l ++ v])) = extent d (a :: (ls ++ [l])) := by
        unfold extent
        rw [← List.cons_append, closing?_append_break hd hv, List.cons_append]
      simp only [List.cons_append, statementsFrom, ih, same]

theorem statements_breakAt {ls : List Line} {s e : Nat} (hd : d.BreakFree) (hl : Lined ls)
    (he : e < ls.length) : statements d (breakAt s e ls) = statements d ls := by
  obtain ⟨ks, l, v, hv, h1, h2⟩ := exists_breakAt (s := s) hl he
  rw [h2, h1]
  exact statementsFrom_append_break hd hv 0 0 ks l

end CallGuard
