import CallGuard.Proofs.Discreet
import CallGuard.Proofs.Pieces
set_option autoImplicit false

/-!
# Plain dialects

In a plain dialect blanks have no part in the lexical rules. Then it can be read off the two trimmed
markers whether guarding is idempotent on texts without markers.
-/
namespace CallGuard

structure Dialect.Plain (d : Dialect) : Prop where
  valid : d.fault? = none
  visible : ∀ c ∈ d.roles, isBlank c = false
  comment : ∀ c ∈ d.lineComment, isBlank c = false

/-! ## Blanks are inert -/

theorem exists_range {n : Nat} {rs : List (Nat × Nat)} (h : inRanges n rs) :
    ∃ r ∈ rs, r.1 ≤ n ∧ n ≤ r.2 := by
  induction rs with
  | nil => cases h
  | cons r rs ih =>
    rw [inRanges] at h
    split at h
    · cases h
    · rename_i low
      rcases Bool.or_eq_true_iff.1 h with high | rest
      · exact ⟨r, List.mem_cons_self, Nat.not_lt.1 low, of_decide_eq_true high⟩
      · obtain ⟨k, hk, hb⟩ := ih rest
        exact ⟨k, List.mem_cons_of_mem r hk, hb⟩

theorem isWordChar_of_isBlank {c : Char} (h : isBlank c) : isWordChar c = false := by
  have apart : blankRanges.all fun r => (List.range' r.1 (r.2 + 1 - r.1)).all fun n =>
      !inRanges n alphabeticRanges && !inRanges n numericRanges := by
    decide +kernel
  obtain ⟨r, hr, low, high⟩ := exists_range h
  have here := List.all_eq_true.1 (List.all_eq_true.1 apart r hr) c.toNat
    (List.mem_range'_1.2 ⟨low, by omega⟩)
  have ne : c ≠ '_' := by
    rintro rfl
    exact absurd h (by decide)
  simp only [Bool.and_eq_true, Bool.not_eq_true'] at here
  simp [isWordChar, isAlphabetic, isNumeric, here, ne]

variable {d : Dialect} {v : Text}

theorem Dialect.Plain.facts (hd : d.Plain) : d.Valid := Dialect.fault?_eq_none_iff.1 hd.valid

theorem Dialect.Plain.inert (hd : d.Plain) (hv : Blank v) : d.Inert v := by
  intro c hc
  have blank := hv c hc
  refine ⟨isWordChar_of_isBlank blank, fun hr => ?_, fun hr => ?_⟩
  · rw [hd.visible c hr] at blank
    cases blank
  · rw [hd.comment c hr] at blank
    cases blank

theorem Dialect.Plain.breakFree (hd : d.Plain) : d.BreakFree := by
  have ne {c : Char} (h : isBlank c = false) : c ≠ '\r' ∧ c ≠ '\n' := by
    constructor <;> rintro rfl <;> exact absurd h (by decide)
  exact {
    tokens := hd.facts.tokens
    roles := fun c hc => ne (hd.visible c hc)
    comment := fun c hc => ne (hd.comment c hc) }

/-! ## Text that changes no state -/

theorem classify_flat_append {q : Bool} {w t : Text} (hw : ∀ c ∈ w, c ∉ d.roles)
    (hc : ∀ u : Text, u <:+ w → u ≠ [] → d.lineComment.isPrefixOf (u ++ t) = false) :
    classify d ⟨q, false⟩ (w ++ t) =
      w.map (fun c => ⟨c, Scan.plain ⟨q, false⟩⟩) ++ classify d ⟨q, false⟩ t ∧
        Scan.after d ⟨q, false⟩ (w ++ t) = Scan.after d ⟨q, false⟩ t := by
  induction w with
  | nil => exact ⟨rfl, rfl⟩
  | cons c w ih =>
    obtain ⟨h1, h2⟩ := ih (fun a ha => hw a (List.mem_cons_of_mem c ha))
      fun u hu => hc u (hu.trans (List.suffix_cons c w))
    have roles := hw c List.mem_cons_self
    have comment := hc (c :: w) List.suffix_rfl (List.cons_ne_nil c w)
    simp only [Dialect.roles, List.mem_cons, not_or] at roles
    rw [List.cons_append] at comment
    have stays : Scan.step d ⟨q, false⟩ c (w ++ t) =
        some (Scan.plain ⟨q, false⟩, ⟨q, false⟩) := by
      simp [Scan.step, roles, comment]
    rw [List.cons_append, classify, Scan.after, stays]
    dsimp only
    rw [h1, h2]
    exact ⟨rfl, rfl⟩

theorem classify_inert_append (hc : d.lineComment ≠ []) (hv : d.Inert v) (q : Bool) (t : Text) :
    classify d ⟨q, false⟩ (v ++ t) =
      v.map (fun c => ⟨c, Scan.plain ⟨q, false⟩⟩) ++ classify d ⟨q, false⟩ t ∧
        Scan.after d ⟨q, false⟩ (v ++ t) = Scan.after d ⟨q, false⟩ t := by
  refine classify_flat_append (fun c hm => (hv c hm).2.1) fun u hu hne => ?_
  obtain ⟨a, as, ha⟩ := List.exists_cons_of_ne_nil hc
  obtain ⟨b, bs, hb⟩ := List.exists_cons_of_ne_nil hne
  have comment : b ∉ d.lineComment := (hv b (hu.subset (by rw [hb]; exact List.mem_cons_self))).2.2
  have ne : a ≠ b := fun e => comment (by rw [ha, e]; exact List.mem_cons_self)
  simp [ha, hb, List.isPrefixOf, ne]

theorem callFrom_inert_append {hs gs : List Glyph} (hv : d.Inert v) (hm : hs.map Glyph.char = v)
    {before : Option Char} (hb : before.any isWordChar = false) :
    (callFrom d before (hs ++ gs)).isSome = (callFrom d none gs).isSome := by
  induction hs generalizing v before with
  | nil =>
    cases gs with
    | nil => rfl
    | cons g gs =>
      have same : isCallHead d before g gs = isCallHead d none g gs := by
        simp only [isCallHead, hb, Option.any_none]
      rw [List.nil_append, callFrom, callFrom, same]
  | cons g hs ih =>
    subst hm
    have word := (hv g.char (List.mem_map_of_mem List.mem_cons_self)).1
    have head : isCallHead d before g (hs ++ gs) = false := by simp [isCallHead, word]
    rw [List.cons_append, callFrom, head, if_neg Bool.false_ne_true, Option.isSome_map]
    exact ih (fun c hc => hv c (List.mem_cons_of_mem g.char hc)) rfl (by simpa using word)

theorem inQuote_after_inert (hv : d.Inert v) (s : Scan) : (s.after d v).inQuote = s.inQuote ∧
    (s.pending = false → (s.after d v).pending = false) := by
  induction v generalizing s with
  | nil => exact ⟨rfl, id⟩
  | cons c v ih =>
    obtain ⟨-, roles, -⟩ := hv c List.mem_cons_self
    simp only [Dialect.roles, List.mem_cons, not_or] at roles
    have tail := ih fun a ha => hv a (List.mem_cons_of_mem c ha)
    rw [Scan.after]
    split
    · rename_i r u h
      have keeps : u.inQuote = s.inQuote ∧ u.pending = false := by
        refine ⟨?_, Scan.pending_of_step roles.2.1 h⟩
        rw [Scan.step, if_neg roles.2.1, if_neg roles.1] at h
        split at h
        · cases h
          rfl
        · split at h
          · cases h
          · cases h
            rfl
      exact ⟨(tail u).1.trans keeps.1, fun _ => (tail u).2 keeps.2⟩
    · exact ⟨rfl, id⟩

theorem inQuote_after_append_inert (hv : d.Inert v) (s : Scan) (l : Line) :
    (s.after d (l ++ v)).inQuote = (s.after d l).inQuote := by
  induction l generalizing s with
  | nil => exact (inQuote_after_inert hv s).1
  | cons c l ih =>
    rw [List.cons_append, Scan.after, Scan.after, step_append_inert hv]
    split
    · exact ih _
    · rfl

/-! ## A line among blanks -/

section
variable (hd : d.Plain) {u o v : Text} (hu : Blank u) (hv : Blank v)
include hd hu hv

theorem hasCall_around : hasCall d (u ++ (o ++ v)) = hasCall d o := by
  have front := (classify_inert_append hd.facts.comment (hd.inert hu) false (o ++ v)).1
  have char : (u.map fun c => (⟨c, Scan.plain ⟨false, false⟩⟩ : Glyph)).map Glyph.char = u := by
    simp [Function.comp_def]
  change (callFrom d none (classify d ⟨false, false⟩ (u ++ (o ++ v)))).isSome = _
  rw [front, callFrom_inert_append (hd.inert hu) char rfl]
  exact hasCall_append_inert hd.facts.tokens (hd.inert hv) o

theorem openDepth_around (q : Bool) (n : Nat) :
    openDepth d n (classify d ⟨q, false⟩ (u ++ (o ++ v))) =
      openDepth d n (classify d ⟨q, false⟩ o) := by
  have front := (classify_inert_append hd.facts.comment (hd.inert hu) q (o ++ v)).1
  have char : (u.map fun c => (⟨c, Scan.plain ⟨q, false⟩⟩ : Glyph)).map Glyph.char = u := by
    simp [Function.comp_def]
  obtain ⟨hs, hm, e⟩ := exists_classify_append (hd.inert hv) ⟨q, false⟩ o
  rw [front, openDepth_append, openDepth_inert (hd.inert hu) char, e]
  exact openDepth_append_inert (hd.inert hv) hm n _

theorem inQuote_around (q : Bool) : (Scan.after d ⟨q, false⟩ (u ++ (o ++ v))).inQuote =
    (Scan.after d ⟨q, false⟩ o).inQuote := by
  rw [(classify_inert_append hd.facts.comment (hd.inert hu) q (o ++ v)).2]
  exact inQuote_after_append_inert (hd.inert hv) _ o

end

/-! ## The lines of a piece -/

section
variable (hd : d.Plain)
include hd

theorem hasCall_of_blank (hv : Blank v) : hasCall d v = false := by
  have := hasCall_append_inert hd.facts.tokens (hd.inert hv) []
  rw [List.nil_append] at this
  rw [this]
  rfl

theorem isMarker_of_blank (hv : Blank v) : d.isMarker v = false := by
  rw [Dialect.isMarker, Dialect.opensGuard, Dialect.closesGuard,
    isDirective_of_blank hd.facts.openMarker hv, isDirective_of_blank hd.facts.closeMarker hv]
  rfl

theorem carry_blank {ls : List Line} (hl : ∀ l ∈ ls, Blank l) (s : Scan) (n : Nat) :
    ∃ u, carry d s n ls = some (u, n) ∧ u.inQuote = s.inQuote ∧
      (s.pending = false → u.pending = false) := by
  induction ls generalizing s with
  | nil => exact ⟨s, rfl, rfl, id⟩
  | cons l ls ih =>
    obtain ⟨hb, hl⟩ := List.forall_mem_cons.1 hl
    obtain ⟨u, hc, hq, hp⟩ := ih hl (s.after d l)
    obtain ⟨q, p⟩ := inQuote_after_inert (hd.inert hb) s
    refine ⟨u, ?_, hq.trans q, fun h => hp (p h)⟩
    rw [carry_cons (openDepth_inert (hd.inert hb) (map_char_classify d s l) n), hc]

variable {o : Text} {before after : Nat} {ls : List Line} (hl : Piece o before after ls)
include hl

theorem Piece.noCall (ho : hasCall d o = false) : ∀ l ∈ ls, hasCall d l = false := by
  obtain ⟨as, u, v, bs, rfl, has, hu, hv, hbs, -, -⟩ := hl
  intro l hm
  rcases List.mem_append.1 hm with hm | hm
  · exact hasCall_of_blank hd (has l hm)
  · rcases List.mem_cons.1 hm with rfl | hm
    · rw [hasCall_around hd hu hv]
      exact ho
    · exact hasCall_of_blank hd (hbs l hm)

/-- A run over the lines of a piece does what a run over the trimmed marker does. -/
theorem Piece.carry {q : Bool} {n m : Nat}
    (ho : openDepth d n (classify d ⟨q, false⟩ o) = some m) : ∃ u,
      CallGuard.carry d ⟨q, false⟩ n ls = some (u, m) ∧
        u.inQuote = (Scan.after d ⟨q, false⟩ o).inQuote := by
  obtain ⟨as, u, v, bs, rfl, has, hu, hv, hbs, -, -⟩ := hl
  obtain ⟨x, hx, hq, hp⟩ := carry_blank hd has ⟨q, false⟩ n
  obtain rfl : x = ⟨q, false⟩ := Scan.eq_of rfl (hp rfl) hq
  obtain ⟨y, hy, hyq, -⟩ := carry_blank hd hbs (Scan.after d ⟨q, false⟩ (u ++ (o ++ v))) m
  refine ⟨y, ?_, hyq.trans (inQuote_around hd hu hv q)⟩
  rw [carry_append_of_some hx, carry_cons ((openDepth_around hd hu hv q n).trans ho), hy]

end

theorem piece_opening (hd : d.Plain) (hn : '\n' ∉ trim d.openMarker) (first : Line) :
    ∃ before, Piece (trim d.openMarker) before (breaksAfter d.openMarker)
      (splitLines (openingText d first)) := by
  have parts := marker_parts hd.facts.openMarker
  have tail : Blank (d.openMarker.reverse.takeWhile isBlank).reverse :=
    fun c hc => blank_takeWhile _ c (List.mem_reverse.1 hc)
  have brk : Blank (lineBreak first) := fun c hc => isBlank_of_mem_lineBreak hc
  have whole : openingText d first = indent first ++ d.openMarker.takeWhile isBlank ++
      (trim d.openMarker ++ ((d.openMarker.reverse.takeWhile isBlank).reverse ++ lineBreak first)) := by
    rw [openingText]
    conv_lhs => rw [parts]
    simp only [List.append_assoc]
  have front : Blank (indent first ++ d.openMarker.takeWhile isBlank) :=
    Blank.append (fun c hc => (mem_indent hc).1) (blank_takeWhile _)
  obtain ⟨after, piece, count⟩ := piece_splitLines hd.facts.openMarker hn front (tail.append brk)
  have one : (lineBreak first).count '\n' = 1 := by
    rcases lineBreak_cases first with h | h <;> rw [h] <;> rfl
  have counted := count (getLast_append_lineBreak _ first)
  rw [List.count_append, List.count_reverse, one] at counted
  obtain rfl : after = breaksAfter d.openMarker := by
    unfold breaksAfter
    omega
  rw [whole]
  exact ⟨_, piece⟩

theorem piece_closing (hd : d.Plain) (hn : '\n' ∉ trim d.closeMarker) (first last : Line) :
    ∃ after, Piece (trim d.closeMarker) (breaksBefore d.closeMarker) after
      (splitLines (closingText d first last)) := by
  have parts := marker_parts hd.facts.closeMarker
  have tail : Blank (d.closeMarker.reverse.takeWhile isBlank).reverse :=
    fun c hc => blank_takeWhile _ c (List.mem_reverse.1 hc)
  have brk : Blank (if terminator last = [] then [] else lineBreak first) := by
    intro c hc
    split at hc
    · cases hc
    · exact isBlank_of_mem_lineBreak hc
  have whole : closingText d first last = indent first ++ d.closeMarker.takeWhile isBlank ++
      (trim d.closeMarker ++ ((d.closeMarker.reverse.takeWhile isBlank).reverse ++
        if terminator last = [] then [] else lineBreak first)) := by
    rw [closingText]
    conv_lhs => rw [parts]
    simp only [List.append_assoc]
  have front : Blank (indent first ++ d.closeMarker.takeWhile isBlank) :=
    Blank.append (fun c hc => (mem_indent hc).1) (blank_takeWhile _)
  obtain ⟨after, piece, -⟩ := piece_splitLines hd.facts.closeMarker hn front (tail.append brk)
  have none : (indent first).count '\n' = 0 := List.count_eq_zero.2 fun h => (mem_indent h).2.2 rfl
  rw [List.count_append, none, Nat.zero_add] at piece
  rw [whole]
  exact ⟨after, piece⟩

/-! ## What the trimmed markers have to be -/

/-- The trimmed markers are lines, near enough to what they are put around, without calls, and leave
quotes and nesting alone; an open marker may close what the close markers before it have opened. -/
structure Dialect.Repeatable (d : Dialect) : Prop where
  openBreak : '\n' ∉ trim d.openMarker
  closeBreak : '\n' ∉ trim d.closeMarker
  openNear : breaksAfter d.openMarker ≤ d.window
  closeNear : breaksBefore d.closeMarker ≤ d.window
  openCall : hasCall d (trim d.openMarker) = false
  closeCall : hasCall d (trim d.closeMarker) = false
  openQuote : ∀ q, (Scan.after d ⟨q, false⟩ (trim d.openMarker)).inQuote = q
  closeQuote : ∀ q, (Scan.after d ⟨q, false⟩ (trim d.closeMarker)).inQuote = q
  nesting : ∀ q q', ∃ m, openDepth d 1 (classify d ⟨q, false⟩ (trim d.closeMarker)) = some m ∧
    (openDepth d m (classify d ⟨q', false⟩ (trim d.openMarker))).isSome

theorem Piece.opens (hd : d.Plain) {before after : Nat} {ls : List Line}
    (hl : Piece (trim d.openMarker) before after ls) (stops : Bool) (above : List Line) :
    hasOpener d stops d.window 0 (ls.reverse ++ above) = decide (after ≤ d.window) := by
  obtain ⟨as, u, v, bs, rfl, -, hu, hv, hbs, -, rfl⟩ := hl
  have unmarked : ∀ l ∈ bs.reverse, d.isMarker l = false :=
    fun l hm => isMarker_of_blank hd (hbs l (List.mem_reverse.1 hm))
  have noStop : bs.reverse.any d.isDeclaration = false := List.any_eq_false.2 fun l hm => by
    simp [isDeclaration_of_blank d (hbs l (List.mem_reverse.1 hm))]
  have marker : d.opensGuard (u ++ (trim d.openMarker ++ v)) :=
    isDirective_around hd.facts.openMarker hu hv
  rw [List.reverse_append, List.reverse_cons, List.append_assoc, List.append_assoc,
    hasOpener_append_unmarked unmarked, noStop, List.singleton_append, hasOpener_opens_zero marker,
    List.length_reverse, Bool.and_false, Bool.not_false, Bool.and_true, Bool.and_true]

theorem Piece.closes (hd : d.Plain) {before after : Nat} {ls : List Line}
    (hl : Piece (trim d.closeMarker) before after ls) (below : List Line) :
    hasCloser d d.window 0 (ls ++ below) = decide (before ≤ d.window) := by
  obtain ⟨as, u, v, bs, rfl, has, hu, hv, -, rfl, -⟩ := hl
  have unmarked : ∀ l ∈ as, d.isMarker l = false := fun l hm => isMarker_of_blank hd (has l hm)
  have marker : d.closesGuard (u ++ (trim d.closeMarker ++ v)) :=
    isDirective_around hd.facts.closeMarker hu hv
  rw [List.append_assoc, List.cons_append, hasCloser_append_unmarked unmarked,
    hasCloser_closes_zero marker, Bool.and_true]

theorem Dialect.Repeatable.discreet (hd : d.Plain) (hr : d.Repeatable) : d.Discreet where
  toBreakFree := hd.breakFree
  opening first := by
    obtain ⟨_, piece⟩ := piece_opening hd hr.openBreak first
    exact piece.noCall hd hr.openCall
  closing first last := by
    obtain ⟨_, piece⟩ := piece_closing hd hr.closeBreak first last
    exact piece.noCall hd hr.closeCall
  opener first above := by
    obtain ⟨_, piece⟩ := piece_opening hd hr.openBreak first
    rw [piece.opens hd, decide_eq_true hr.openNear]
  closer first last below := by
    obtain ⟨_, piece⟩ := piece_closing hd hr.closeBreak first last
    rw [piece.closes hd, decide_eq_true hr.closeNear]
  nesting first last q := by
    obtain ⟨_, piece⟩ := piece_closing hd hr.closeBreak first last
    obtain ⟨m, hm, -⟩ := hr.nesting q q
    obtain ⟨u, hu, hq⟩ := piece.carry hd hm
    refine ⟨u, m, hu, hq.trans (hr.closeQuote q), fun first q' => ?_⟩
    obtain ⟨_, piece⟩ := piece_opening hd hr.openBreak first
    obtain ⟨m', hm', hk⟩ := hr.nesting q q'
    obtain rfl : m = m' := Option.some.inj (hm.symm.trans hm')
    obtain ⟨k, hk⟩ := Option.isSome_iff_exists.1 hk
    obtain ⟨w, hw, hwq⟩ := piece.carry hd hk
    exact ⟨w, k, hw, hwq.trans (hr.openQuote q')⟩

end CallGuard
