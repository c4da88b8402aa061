import CallGuard.Proofs.Prefixes
set_option autoImplicit false

/-!
# Pairs of markers

A text without markers gets its markers in pairs: for each block an open marker right above it and a
close marker right below it, both indented like its first line.
-/
namespace CallGuard

variable {d : Dialect} {ls : List Line} {b : Block} {bs : List Block} {i j n s e : Nat}

def markerLines (d : Dialect) (ls : List Line) : List Nat := ls.findIdxs d.isMarker

def openerLine (bs : List Block) (b : Block) : Nat := movedLine bs b.start - 1

def closerLine (bs : List Block) (b : Block) : Nat := movedLine bs b.last + 1

/-! ## Where the markers stand -/

theorem isMarker_openingText (d : Dialect) (first : Line) : d.isMarker (openingText d first) := by
  rw [Dialect.isMarker, opensGuard_openingText, Bool.true_or]

theorem isMarker_closingText (d : Dialect) (first last : Line) :
    d.isMarker (closingText d first last) := by
  rw [Dialect.isMarker, closesGuard_closingText, Bool.or_true]

theorem findIdxs_unmarked {ms : List Line} (h : ∀ m ∈ ms, d.isMarker m = false) :
    ms.findIdxs d.isMarker i = [] :=
  List.findIdxs_eq_nil_iff.2 h

theorem findIdxs_marker {l : Line} (h : d.isMarker l) :
    (l :: ls).findIdxs d.isMarker i = i :: ls.findIdxs d.isMarker (i + 1) := by
  rw [List.findIdxs_cons, if_pos h]

theorem markerLines_enclose (hd : d.Unbroken) (hs : s ≤ e) (he : e < ls.length)
    (hm : ∀ l ∈ ls.take (e + 1), d.isMarker l = false) : markerLines d (enclose d s e ls) =
      s :: (e + 2) :: (markerLines d ls).map (· + 2) := by
  have above : ∀ l ∈ ls.take s, d.isMarker l = false := by
    intro l hl
    rw [← Nat.min_eq_left (by omega : s ≤ e + 1), ← List.take_take] at hl
    exact hm l (List.mem_of_mem_take hl)
  have inside : ∀ l ∈ between (breakAt s e ls) s (e + 1), d.isMarker l = false := by
    intro l hl
    obtain ⟨k, -, hk, rfl⟩ := mem_between hl
    rw [isMarker_breakAt, lineAt_eq_getElem (by omega)]
    exact hm _ (List.mem_take_iff_getElem.2 ⟨k, by omega, rfl⟩)
  have len := length_between_breakAt (s := s) he
  have old : markerLines d ls = (ls.drop (e + 1)).findIdxs d.isMarker (e + 1) := by
    conv_lhs => rw [markerLines, ← List.take_append_drop (e + 1) ls]
    rw [List.findIdxs_append, findIdxs_unmarked hm, List.nil_append, List.length_take,
      Nat.min_eq_left (by omega), Nat.zero_add]
  rw [old, markerLines, enclose_cut hd hs, List.findIdxs_append, findIdxs_unmarked above,
    List.nil_append, findIdxs_marker (isMarker_openingText d _), List.findIdxs_append,
    findIdxs_unmarked inside, List.nil_append, findIdxs_marker (isMarker_closingText d _ _), len,
    List.length_take, Nat.min_eq_left (by omega)]
  have below : 0 + s + 1 + (e + 1 - s) + 1 = e + 1 + 2 := by omega
  have close : 0 + s + 1 + (e + 1 - s) = e + 2 := by omega
  rw [below, close, Nat.zero_add, List.findIdxs_start, List.findIdxs_start (s := e + 1), List.map_map]
  rfl

theorem lt_movedLine (hb : b ∈ bs) : b.start < movedLine bs b.start := by
  have here : 0 < bs.countP (·.start ≤ b.start) :=
    List.countP_pos_iff.2 ⟨b, hb, by simp⟩
  unfold movedLine
  omega

theorem openerLine_cons {c : Block} (h : InOrder n i (b :: bs)) (hc : c ∈ bs) :
    openerLine (b :: bs) c = openerLine bs c + 2 := by
  have later := h.2.2.2.ge c hc
  have := le_movedLine bs c.start
  rw [openerLine, movedLine_cons_below h (by omega), openerLine]
  omega

theorem closerLine_cons {c : Block} (h : InOrder n i (b :: bs)) (hc : c ∈ bs) :
    closerLine (b :: bs) c = closerLine bs c + 2 := by
  have later := h.2.2.2.ge c hc
  rw [closerLine, movedLine_cons_below h (by omega), closerLine]

theorem openerLine_head (h : InOrder n i (b :: bs)) : openerLine (b :: bs) b = b.start := by
  rw [openerLine, movedLine_cons_inside h (Nat.le_refl _) h.2.1, Nat.add_sub_cancel]

theorem closerLine_head (h : InOrder n i (b :: bs)) : closerLine (b :: bs) b = b.last + 2 := by
  rw [closerLine, movedLine_cons_inside h h.2.1 (Nat.le_refl _)]

theorem markerLines_encloseAll (hd : d.Unbroken) (h : InOrder ls.length n bs)
    (hm : ∀ l ∈ ls, d.isMarker l = false) : markerLines d (encloseAll d ls bs) =
      bs.flatMap fun b => [openerLine bs b, closerLine bs b] := by
  induction bs generalizing n with
  | nil => exact findIdxs_unmarked hm
  | cons b bs ih =>
    have above := (encloseAll_take (d := d) h.2.2.2).1
    have unmarked : ∀ l ∈ (encloseAll d ls bs).take (b.last + 1), d.isMarker l = false := by
      rw [above]
      exact fun l hl => hm l (List.mem_of_mem_take hl)
    rw [encloseAll, markerLines_enclose hd h.2.1 (last_lt_encloseAll h) unmarked,
      ih h.2.2.2, List.map_flatMap, List.flatMap_cons, openerLine_head h, closerLine_head h]
    change b.start :: (b.last + 2) :: _ = b.start :: (b.last + 2) :: _
    congr 2
    apply List.flatMap_congr
    intro c hc
    rw [openerLine_cons h hc, closerLine_cons h hc]
    rfl

/-! ## What stands between them -/

/-- Each block stands with its lines between its own markers. -/
theorem guard_encloseAll (hd : d.Unbroken) (h : InOrder ls.length n bs) (hb : b ∈ bs) :
    lineAt (encloseAll d ls bs) (openerLine bs b) = openingText d (lineAt ls b.start) ∧
    lineAt (encloseAll d ls bs) (closerLine bs b) =
      closingText d (lineAt ls b.start) (lineAt ls b.last) ∧
    between (encloseAll d ls bs) (openerLine bs b + 1) (closerLine bs b) =
      between (breakAt b.start b.last ls) b.start (b.last + 1) := by
  induction bs generalizing n with
  | nil => cases hb
  | cons c bs ih =>
    have he : c.last < (encloseAll d ls bs).length := last_lt_encloseAll h
    rcases List.mem_cons.1 hb with rfl | hb
    · have above := (encloseAll_take (d := d) h.2.2.2).1
      have hle := h.2.1
      have first := lineAt_eq_of_take_eq above (Nat.lt_succ_of_le hle)
      have last := lineAt_eq_of_take_eq above (Nat.lt_succ_self b.last)
      rw [openerLine_head h, closerLine_head h, encloseAll, lineAt_enclose_opener hd hle he,
        lineAt_enclose_closer hd hle he, between_enclose_markers hd hle he, breakAt_between hle he,
        breakAt_between hle h.2.2.1, first, last, between_eq_of_take_eq above (Nat.le_succ b.last)]
      exact ⟨rfl, rfl, rfl⟩
    · have later := h.2.2.2.ge b hb
      obtain ⟨first, last, inside⟩ := ih h.2.2.2 hb
      have o : c.last < openerLine bs b := by
        have := lt_movedLine hb
        rw [openerLine]
        omega
      have cl : c.last < closerLine bs b := by
        have := le_movedLine bs b.last
        rw [closerLine]
        omega
      rw [openerLine_cons h hb, closerLine_cons h hb, encloseAll,
        lineAt_enclose_below hd h.2.1 he o, lineAt_enclose_below hd h.2.1 he cl,
        Nat.add_right_comm, between_enclose hd h.2.1 he (Nat.lt_succ_of_lt o)]
      exact ⟨first, last, inside⟩

/-! ## Indentation -/

def isIndent (c : Char) : Bool := isBlank c && c != '\r' && c != '\n'

theorem indent_append_stop (l : Line) {t : Text} (h : t.head?.all (!isIndent ·)) :
    indent (l ++ t) = indent l := by
  have stop : t.takeWhile isIndent = [] := by
    cases t with
    | nil => rfl
    | cons c t => exact List.takeWhile_cons_of_neg (by simpa using h)
  change (l ++ t).takeWhile isIndent = l.takeWhile isIndent
  rw [List.takeWhile_append, stop, List.append_nil]
  split
  · rename_i all
    exact (List.takeWhile_prefix isIndent).eq_of_length all |>.symm
  · rfl

theorem indent_indent (l : Line) : indent (indent l) = indent l := List.takeWhile_idem

theorem indent_append_gap (l first last : Line) : indent (l ++ gap first last) = indent l := by
  apply indent_append_stop
  unfold gap
  split
  · rcases lineBreak_cases first with h | h <;> rw [h] <;> rfl
  · rfl

theorem stops_of_visible {m : Text} (hm : m ≠ []) (hv : m.head?.all (!isBlank ·)) (t : Text) :
    (m ++ t).head?.all (!isIndent ·) := by
  obtain ⟨c, m, rfl⟩ := List.exists_cons_of_ne_nil hm
  have hc : isBlank c = false := by simpa using hv
  simp [isIndent, hc]

theorem indent_openingText (hm : d.openMarker ≠ []) (hv : d.openMarker.head?.all (!isBlank ·))
    (first : Line) : indent (openingText d first) = indent first := by
  rw [openingText, List.append_assoc, indent_append_stop _ (stops_of_visible hm hv _),
    indent_indent]

theorem indent_closingText (hm : d.closeMarker ≠ []) (hv : d.closeMarker.head?.all (!isBlank ·))
    (first last : Line) : indent (closingText d first last) = indent first := by
  rw [closingText, List.append_assoc, indent_append_stop _ (stops_of_visible hm hv _),
    indent_indent]

theorem indent_lineAt_breakAt (i : Nat) (ls : List Line) :
    indent (lineAt (breakAt s e ls) i) = indent (lineAt ls i) := by
  by_cases hi : i = e
  · subst hi
    by_cases hlt : i < ls.length
    · rw [lineAt_breakAt_self hlt, indent_append_gap]
    · rw [breakAt, List.set_eq_of_length_le (by omega)]
  · rw [lineAt_breakAt hi]

theorem lineAt_between (ls : List Line) {i j k : Nat} (h : i + k < j) :
    lineAt (between ls i j) k = lineAt ls (i + k) := by
  rw [between, lineAt_drop, lineAt, List.getElem?_take_of_lt h, lineAt]

theorem openMarker_ne_nil (h : d.fault? = none) : d.openMarker ≠ [] := by
  intro hn
  refine (Dialect.fault?_eq_none_iff.1 h).openMarker ?_
  rw [hn]
  rfl

/-- In the output of a text without markers the markers alternate: each block has an open marker
right above it and a close marker right below it, with its indentation, and between them stand its
lines and nothing else. -/
theorem guardText_pairs_markers (hv : d.fault? = none) (ho : '\n' ∉ d.openMarker)
    (hc : '\n' ∉ d.closeMarker) (ho' : d.openMarker.head?.all (!isBlank ·))
    (hc' : d.closeMarker.head?.all (!isBlank ·)) (hx : d.Exclusive) (t : Text)
    (hm : ∀ l ∈ splitLines t, d.isMarker l = false) :
    let ls := splitLines t
    let g := guardText d t
    let out := splitLines g.output
    markerLines d out = g.blocks.flatMap (fun b => [openerLine g.blocks b, closerLine g.blocks b]) ∧
    (markerLines d out).length = 2 * g.count ∧
    ∀ b ∈ g.blocks,
      let o := openerLine g.blocks b
      let c := closerLine g.blocks b
      (d.opensGuard (lineAt out o) ∧ d.closesGuard (lineAt out o) = false) ∧
      (d.closesGuard (lineAt out c) ∧ d.opensGuard (lineAt out c) = false) ∧
      indent (lineAt out o) = indent (lineAt out (o + 1)) ∧
      indent (lineAt out c) = indent (lineAt out (o + 1)) ∧
      between out (o + 1) c = between (breakAt b.start b.last ls) b.start (b.last + 1) := by
  intro ls g out
  have hd := unbroken_of_valid hv ho hc
  have order : InOrder ls.length 0 g.blocks := blocks_inOrder d ls
  have lines : out = encloseAll d ls g.blocks := splitLines_guardCalls_output (lined_splitLines t)
  have pairs := markerLines_encloseAll hd order hm
  rw [lines, pairs]
  refine ⟨rfl, ?_, ?_⟩
  · simp only [List.length_flatMap, List.length_cons, List.length_nil, List.map_const',
      List.sum_replicate_nat]
    exact Nat.mul_comm _ 2
  · intro b hb o c
    obtain ⟨first, last, inside⟩ := guard_encloseAll hd order hb
    have hle := (blocks_bounds hb).1
    have opens := opensGuard_openingText d (lineAt ls b.start)
    have closes := closesGuard_closingText d (lineAt ls b.start) (lineAt ls b.last)
    -- the line after the open marker is the first of the block
    have body : indent (lineAt (encloseAll d ls g.blocks) (o + 1)) = indent (lineAt ls b.start) := by
      have room : o + 1 + 0 < c := by
        have := lt_movedLine hb
        have := movedLine_le order hle
        change movedLine g.blocks b.start - 1 + 1 < movedLine g.blocks b.last + 1
        omega
      have head := congrArg (lineAt · 0) inside
      rw [lineAt_between _ room, lineAt_between _ (by omega)] at head
      exact (congrArg indent head).trans (indent_lineAt_breakAt _ ls)
    rw [first, last, body, inside, indent_openingText (openMarker_ne_nil hv) ho',
      indent_closingText hd.closeMarker_ne_nil hc']
    exact ⟨⟨opens, hx _ opens⟩, ⟨closes, hx.closes closes⟩, rfl, rfl, rfl⟩

/-- A statement of two lines that end in a carriage return and a line feed, and one in a last line
without a terminator. -/
def looseText : Text := "\t print(\r\n  a)\r\nfoo()\nprint(b".toList

theorem guardText_pairs_markers_looseText :
    (∀ l ∈ splitLines looseText, Dialect.swift.isMarker l = false) ∧
    markerLines .swift (splitLines (guardText .swift looseText).output) = [0, 3, 5, 7] ∧
    (∀ b ∈ (guardText .swift looseText).blocks,
      indent (lineAt (splitLines (guardText .swift looseText).output)
        (closerLine (guardText .swift looseText).blocks b)) =
      indent (lineAt (splitLines (guardText .swift looseText).output)
        (openerLine (guardText .swift looseText).blocks b + 1))) := by
  have unmarked : ∀ l ∈ splitLines looseText, Dialect.swift.isMarker l = false := by decide +kernel
  obtain ⟨pairs, -, each⟩ := guardText_pairs_markers (d := .swift) (by decide) (by decide)
    (by decide) (by decide) (by decide) Dialect.swift_neutral.exclusive looseText unmarked
  refine ⟨unmarked, ?_, fun b hb => (each b hb).2.2.2.1⟩
  rw [pairs]
  decide +kernel

end CallGuard
