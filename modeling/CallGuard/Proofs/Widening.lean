import CallGuard.Proofs.Residual
import CallGuard.Proofs.Windows
set_option autoImplicit false

/-!
# Wider windows

Where statements begin and end is told by the lexical rules and the call tokens of a dialect alone,
so a wider window leaves the walk over a text as it is. A search that finds a marker finds the same
one with more to spend: the lines that it steps over are within the wider window too, and none of
them stops it. So a wider window recognises more guards, and only leaves out blocks and uncovered
calls.
-/
namespace CallGuard

/-! ## The rules for code -/

/-- The two dialects read code alike: all but the markers, the words that declare and the window. -/
structure Dialect.SameCode (d d' : Dialect) : Prop where
  tokens : d'.callTokens = d.callTokens
  comment : d'.lineComment = d.lineComment
  quote : d'.quote = d.quote
  escape : d'.escape = d.escape
  openDelim : d'.openDelim = d.openDelim
  closeDelim : d'.closeDelim = d.closeDelim

namespace Dialect.SameCode

variable {d d' : Dialect} (h : d.SameCode d')
include h

theorem step_eq (s : Scan) (c : Char) (rest : Text) : s.step d' c rest = s.step d c rest := by
  simp only [Scan.step, h.comment, h.quote, h.escape]

theorem classify_eq (s : Scan) (l : Line) : classify d' s l = classify d s l :=
  classify_congr h.step_eq s l

theorem after_eq (s : Scan) (l : Line) : s.after d' l = s.after d l := by
  induction l generalizing s with
  | nil => rfl
  | cons c l ih => simp only [Scan.after, h.step_eq, ih]

theorem opens_eq (g : Glyph) : g.opens d' = g.opens d := by
  rw [Glyph.opens, Glyph.opens, h.openDelim]

theorem closes_eq (g : Glyph) : g.closes d' = g.closes d := by
  rw [Glyph.closes, Glyph.closes, h.opens_eq, h.closeDelim]

theorem openDepth_eq (n : Nat) (gs : List Glyph) : openDepth d' n gs = openDepth d n gs := by
  induction gs generalizing n with
  | nil => rfl
  | cons g gs ih => simp only [openDepth, h.opens_eq, h.closes_eq, ih]

theorem depthAfter_eq (n : Nat) (gs : List Glyph) : depthAfter d' n gs = depthAfter d n gs := by
  induction gs generalizing n with
  | nil => rfl
  | cons g gs ih => simp only [depthAfter, h.opens_eq, h.closes_eq, ih]

theorem isCallHead_eq (before : Option Char) (g : Glyph) (gs : List Glyph) :
    isCallHead d' before g gs = isCallHead d before g gs := by
  simp only [isCallHead, opensNext, h.tokens, h.openDelim]

theorem callAt?_eq (l : Line) : callAt? d' l = callAt? d l := by
  rw [callAt?, h.classify_eq, callFrom_congr h.isCallHead_eq, callAt?]

theorem callColumn?_eq (l : Line) : callColumn? d' l = callColumn? d l := by
  rw [callColumn?_eq_map, h.callAt?_eq, callColumn?_eq_map]

theorem hasCall_eq (l : Line) : hasCall d' l = hasCall d l := by
  rw [hasCall, h.callAt?_eq, hasCall]

theorem closingFrom_eq (s : Scan) (n : Nat) (ls : List Line) :
    closingFrom d' s n ls = closingFrom d s n ls := by
  induction ls generalizing s n with
  | nil => rfl
  | cons l ls ih => simp only [closingFrom, h.openDepth_eq, h.classify_eq, h.after_eq, ih]

theorem closing?_eq (ls : List Line) : closing? d' ls = closing? d ls := by
  cases ls with
  | nil => rfl
  | cons l ls =>
    simp only [closing?, h.classify_eq, h.callAt?_eq, h.depthAfter_eq, h.openDepth_eq, h.after_eq,
      h.closingFrom_eq]

theorem closingLine?_eq (ls : List Line) (i : Nat) :
    closingLine? d' ls i = closingLine? d ls i := by
  rw [closingLine?, h.closing?_eq, closingLine?]

theorem lastLine_eq (ls : List Line) (i : Nat) : lastLine d' ls i = lastLine d ls i := by
  rw [lastLine, h.closingLine?_eq, lastLine]

theorem statementsFrom_eq (k i : Nat) (ls : List Line) :
    statementsFrom d' k i ls = statementsFrom d k i ls := by
  induction ls generalizing k i with
  | nil => rfl
  | cons l ls ih =>
    cases k with
    | succ k => exact ih k (i + 1)
    | zero =>
      have reach : extent d' (l :: ls) = extent d (l :: ls) := by
        rw [extent, h.closing?_eq, extent]
      rw [statementsFrom, statementsFrom, h.hasCall_eq, reach, ih, ih]

theorem statements_eq (ls : List Line) : statements d' ls = statements d ls :=
  h.statementsFrom_eq 0 0 ls

theorem callsFrom_eq (i : Nat) (ls : List Line) : callsFrom d' i ls = callsFrom d i ls := by
  simp only [callsFrom, h.callColumn?_eq]

end Dialect.SameCode

/-! ## Searches with more to spend -/

section
variable {d : Dialect} {stops : Bool} {budget budget' depth i j : Nat} {ls : List Line}

theorem openerAbove_mono (le : budget ≤ budget')
    (h : openerAbove d stops budget depth ls = .ok i) :
    openerAbove d stops budget' depth ls = .ok i := by
  induction ls generalizing budget budget' depth with
  | nil => cases h
  | cons l ls ih =>
    cases ho : d.opensGuard l with
    | true =>
      cases depth with
      | zero =>
        rw [openerAbove_opens_zero ho] at h ⊢
        exact h
      | succ depth =>
        rw [openerAbove_opens_succ ho] at h ⊢
        exact ih le h
    | false =>
      cases hc : d.closesGuard l with
      | true =>
        rw [openerAbove_closes hc ho] at h ⊢
        exact ih le h
      | false =>
        have plain : unmarked d l := by simp [unmarked_eq, ho, hc]
        cases budget with
        | zero =>
          rw [openerAbove_unmarked_zero plain] at h
          cases h
        | succ budget =>
          obtain ⟨budget', rfl⟩ := Nat.exists_eq_add_of_le' (Nat.one_le_of_lt le)
          rw [openerAbove_unmarked_succ plain] at h ⊢
          split at h
          · cases h
          · rename_i passed
            rw [if_neg passed]
            exact ih (Nat.le_of_succ_le_succ le) h

theorem closerBelow_mono (le : budget ≤ budget') (h : closerBelow d budget depth i ls = some j) :
    closerBelow d budget' depth i ls = some j := by
  induction ls generalizing budget budget' depth i with
  | nil => cases h
  | cons l ls ih =>
    cases hc : d.closesGuard l with
    | true =>
      cases depth with
      | zero =>
        rw [closerBelow_closes_zero hc] at h ⊢
        exact h
      | succ depth =>
        rw [closerBelow_closes_succ hc] at h ⊢
        exact ih le h
    | false =>
      cases ho : d.opensGuard l with
      | true =>
        rw [closerBelow_opens ho hc] at h ⊢
        exact ih le h
      | false =>
        have plain : unmarked d l := by simp [unmarked_eq, ho, hc]
        cases budget with
        | zero =>
          rw [closerBelow_unmarked_zero plain] at h
          cases h
        | succ budget =>
          obtain ⟨budget', rfl⟩ := Nat.exists_eq_add_of_le' (Nat.one_le_of_lt le)
          rw [closerBelow_unmarked_succ plain] at h ⊢
          exact ih (Nat.le_of_succ_le_succ le) h

theorem verdict_eq_guarded_iff {a b : Nat} : verdict d ls i = .guarded a b ↔
    opener d true ls i = .ok a ∧ closer? d ls (lastLine d ls i) = some b := by
  unfold verdict
  cases opener d true ls i with
  | error reason => simp
  | ok above => cases closer? d ls (lastLine d ls i) <;> simp

end

/-! ## The window of a dialect -/

def Dialect.withWindow (d : Dialect) (w : Nat) : Dialect := { d with window := w }

section
variable (d : Dialect) (w : Nat)

theorem sameCode_withWindow : d.SameCode (d.withWindow w) := ⟨rfl, rfl, rfl, rfl, rfl, rfl⟩

theorem isDeclaration_withWindow (l : Line) : (d.withWindow w).isDeclaration l = d.isDeclaration l := by
  have declared (ws : List Text) : (d.withWindow w).declaredBy ws = d.declaredBy ws := by
    have keywords : (d.withWindow w).keywords = d.keywords := rfl
    have modifiers : (d.withWindow w).modifiers = d.modifiers := rfl
    induction ws with
    | nil => rfl
    | cons word ws ih => simp only [Dialect.declaredBy, keywords, modifiers, ih]
  exact declared (words l)

theorem openerAbove_withWindow (stops : Bool) (budget depth : Nat) (ls : List Line) :
    openerAbove (d.withWindow w) stops budget depth ls = openerAbove d stops budget depth ls := by
  have opens : (d.withWindow w).opensGuard = d.opensGuard := rfl
  have closes : (d.withWindow w).closesGuard = d.closesGuard := rfl
  induction ls generalizing budget depth with
  | nil => rfl
  | cons l ls ih => simp only [openerAbove, opens, closes, isDeclaration_withWindow, ih]

theorem closerBelow_withWindow (budget depth i : Nat) (ls : List Line) :
    closerBelow (d.withWindow w) budget depth i ls = closerBelow d budget depth i ls := by
  have opens : (d.withWindow w).opensGuard = d.opensGuard := rfl
  have closes : (d.withWindow w).closesGuard = d.closesGuard := rfl
  induction ls generalizing budget depth i with
  | nil => rfl
  | cons l ls ih => simp only [closerBelow, opens, closes, ih]

end

section
variable {d : Dialect} {w w' : Nat} {ls : List Line} (le : w ≤ w')
include le

theorem opener_widened {stops : Bool} {i a : Nat}
    (h : opener (d.withWindow w) stops ls i = .ok a) :
    opener (d.withWindow w') stops ls i = .ok a := by
  rw [opener, openerAbove_withWindow] at h ⊢
  exact openerAbove_mono le h

theorem closer?_widened {last b : Nat} (h : closer? (d.withWindow w) ls last = some b) :
    closer? (d.withWindow w') ls last = some b := by
  rw [closer?, closerBelow_withWindow] at h ⊢
  exact closerBelow_mono le h

theorem verdict_widened {i a b : Nat} (h : verdict (d.withWindow w) ls i = .guarded a b) :
    verdict (d.withWindow w') ls i = .guarded a b := by
  rw [verdict_eq_guarded_iff, (sameCode_withWindow d _).lastLine_eq] at h ⊢
  exact ⟨opener_widened le h.1, closer?_widened le h.2⟩

theorem isCovered_widened {i : Nat} (h : isCovered (d.withWindow w) ls i) :
    isCovered (d.withWindow w') ls i := by
  unfold isCovered at h ⊢
  cases ho : opener (d.withWindow w) false ls i with
  | ok a =>
    rw [opener_widened le ho]
    rfl
  | error reason =>
    rw [ho] at h
    cases h

theorem map_span_blocks_widened : ((blocks (d.withWindow w') ls).map Block.span).Sublist
    ((blocks (d.withWindow w) ls).map Block.span) := by
  have same : statements (d.withWindow w') ls = statements (d.withWindow w) ls := by
    rw [(sameCode_withWindow d w').statements_eq, (sameCode_withWindow d w).statements_eq]
  rw [map_span_blocks, map_span_blocks, same]
  apply List.monotone_filter_right
  intro st open'
  -- a guard seen through the narrower window would be seen through the wider one
  cases hv : verdict (d.withWindow w) ls st.start with
  | guarded a b =>
    rw [verdict_widened le hv] at open'
    exact open'
  | unguarded reason => rfl

theorem unterminated_widened : (guardCalls (d.withWindow w') ls).unterminated.Sublist
    (guardCalls (d.withWindow w) ls).unterminated := by
  have starts (v : Nat) : (guardCalls (d.withWindow v) ls).unterminated =
      (((blocks (d.withWindow v) ls).map Block.span).map Span.start).filter
        fun i => (closingLine? d ls i).isNone := by
    rw [List.map_map, guardCalls]
    simp only [(sameCode_withWindow d v).closingLine?_eq]
    rfl
  rw [starts, starts]
  exact ((map_span_blocks_widened le).map Span.start).filter _

theorem uncovered_widened :
    (uncovered (d.withWindow w') ls).Sublist (uncovered (d.withWindow w) ls) := by
  rw [uncovered_eq, uncovered_eq, (sameCode_withWindow d w').callsFrom_eq,
    (sameCode_withWindow d w).callsFrom_eq]
  apply List.monotone_filter_right
  intro u bare
  cases hc : isCovered (d.withWindow w) ls u.line with
  | true =>
    rw [isCovered_widened le hc] at bare
    exact bare
  | false => rfl

end

/-- With a wider window each guard that was recognised is recognised still, by the same two markers,
and blocks, unterminated statements and uncovered calls are only left out. -/
theorem wider_window_keeps_guards (d : Dialect) {w w' : Nat} (le : w ≤ w') (t : Text) :
    let ls := splitLines t
    let near := d.withWindow w
    let far := d.withWindow w'
    (∀ i a b, verdict near ls i = .guarded a b → verdict far ls i = .guarded a b) ∧
    ((guardText far t).blocks.map Block.span).Sublist ((guardText near t).blocks.map Block.span) ∧
    (guardText far t).unterminated.Sublist (guardText near t).unterminated ∧
    (uncovered far ls).Sublist (uncovered near ls) := by
  intro ls near far
  exact ⟨fun i a b => verdict_widened le, map_span_blocks_widened le, unterminated_widened le,
    uncovered_widened le⟩

/-- The second guard begins three lines above its call, which a window of one line does not show; the
last call never closes, and the wider window shows a declaration above it. -/
def spreadText : Text :=
  "#if DEBUG\nprint(a)\nb\n#endif\n#if DEBUG\nc\nd\nprint(e)\n#endif\nlet f\ng\nprint(h\n".toList

theorem wider_window_keeps_guards_spreadText :
    let ls := splitLines spreadText
    let near := Dialect.swift.withWindow 1
    let far := Dialect.swift.withWindow 3
    (verdict near ls 7 = .unguarded .noOpen ∧ verdict far ls 7 = .guarded 4 8) ∧
    (verdict near ls 1 = .guarded 0 3 ∧ verdict far ls 1 = .guarded 0 3) ∧
    ((guardText near spreadText).blocks.map Block.span = [⟨7, 7⟩, ⟨11, 11⟩] ∧
      (guardText far spreadText).blocks.map Block.span = [⟨11, 11⟩]) ∧
    ((guardText near spreadText).unterminated = [11] ∧
      (guardText far spreadText).unterminated = [11]) ∧
    uncovered near ls = [⟨7, 0⟩, ⟨11, 0⟩] ∧ uncovered far ls = [⟨11, 0⟩] := by
  intro ls near far
  obtain ⟨guards, -⟩ := wider_window_keeps_guards .swift (show 1 ≤ 3 by decide) spreadText
  have first : verdict near ls 1 = .guarded 0 3 := by decide +kernel
  exact ⟨by decide +kernel, ⟨first, guards 1 0 3 first⟩, by decide +kernel, by decide +kernel,
    by decide +kernel⟩

end CallGuard
