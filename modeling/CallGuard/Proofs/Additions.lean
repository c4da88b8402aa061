import CallGuard.Proofs.Enclosure
import CallGuard.Proofs.Validity
set_option autoImplicit false

/-!
# What an output adds

The output of a text is the text with the pieces of its blocks, and each piece is one marker line
when no marker has a line feed in it.
-/
namespace CallGuard

variable {d : Dialect} {ls : List Line} {bs : List Block} {n i s e : Nat}

/-! ## Ends and lengths -/

theorem length_joinSegments_le (gs : List Segment) :
    (joinLines (keptLines gs)).length ≤ (joinSegments gs).length := by
  induction gs with
  | nil => exact Nat.le_refl _
  | cons g gs ih =>
    cases g with
    | kept l =>
      change (l ++ joinLines (keptLines gs)).length ≤ (l ++ joinSegments gs).length
      simp only [List.length_append]
      omega
    | added t =>
      change (joinLines (keptLines gs)).length ≤ (t ++ joinSegments gs).length
      rw [List.length_append]
      omega

theorem opening_ne_nil (d : Dialect) (ls : List Line) (b : Block) : opening d ls b ≠ [] := by
  intro h
  have := openingText_getLast (d := d) (lineAt ls b.start)
  rw [show openingText d (lineAt ls b.start) = [] from h] at this
  cases this

theorem length_lt_joinSegments_layout (d : Dialect) (ls : List Line) (i : Nat) (b : Block)
    (bs : List Block) :
    (joinLines (keptLines (layout d ls i (b :: bs)))).length <
      (joinSegments (layout d ls i (b :: bs))).length := by
  rw [layout, joinSegments_append, keptLines_append, joinLines_append, keptLines_map_kept,
    joinSegments_map_kept]
  change (_ ++ joinLines (keptLines (_ ++ _))).length <
    (_ ++ (opening d ls b ++ joinSegments _)).length
  have rest := length_joinSegments_le ((between ls b.start (b.last + 1)).map Segment.kept ++
    .added (closing d ls b) :: layout d ls (b.last + 1) bs)
  have first := List.length_pos_iff.2 (opening_ne_nil d ls b)
  simp only [List.length_append]
  omega

/-- The close marker of the block, with its indentation, would end a text in a line feed or is
empty. -/
def endsInBreak (d : Dialect) (ls : List Line) (b : Block) : Prop :=
  (indent (lineAt ls b.start) ++ d.closeMarker).getLast?.all (· == '\n')

theorem getLast_append_lineBreak (t : Text) (l : Line) : (t ++ lineBreak l).getLast? = some '\n' := by
  rcases lineBreak_cases l with h | h <;> rw [h] <;> simp

theorem closing_getLast (b : Block) : (closing d ls b).getLast? = some '\n' ↔
    terminator (lineAt ls b.last) ≠ [] ∨ endsInBreak d ls b := by
  unfold closing endsInBreak
  split
  · rename_i ht
    have brk := getLast_append_lineBreak [] (lineAt ls b.start)
    rw [List.getLast?_append]
    cases (indent (lineAt ls b.start) ++ d.closeMarker).getLast? with
    | none => simpa [ht] using brk
    | some c => simp [ht]
  · rename_i ht
    exact iff_of_true (getLast_append_lineBreak _ _) (Or.inl ht)

theorem Lined.joinLines_ne_nil {l : Line} (h : Lined (l :: ls)) : joinLines (l :: ls) ≠ [] := by
  intro hn
  have hl : l = [] := (List.append_eq_nil_iff.1 (show l ++ joinLines ls = [] from hn)).1
  exact h.ne_nil List.mem_cons_self hl

theorem Lined.joinLines_drop_ne_nil (h : Lined ls) (hi : i < ls.length) :
    joinLines (ls.drop i) ≠ [] := by
  have hr := h.drop i
  rw [List.drop_eq_getElem_cons hi] at hr ⊢
  exact hr.joinLines_ne_nil

theorem Lined.drop_getLast (h : Lined ls) (hi : i < ls.length) :
    (joinLines (ls.drop i)).getLast? = (joinLines ls).getLast? := by
  have split := congrArg joinLines (List.take_append_drop i ls)
  rw [joinLines_append] at split
  rw [← split, List.getLast?_append_of_ne_nil _ (h.joinLines_drop_ne_nil hi)]

theorem Lined.getLast_lineAt (h : Lined ls) (he : e + 1 = ls.length) :
    (joinLines ls).getLast? = some '\n' ↔ terminator (lineAt ls e) ≠ [] := by
  rw [← h.drop_getLast (i := e) (by omega), List.drop_eq_getElem_cons (by omega),
    List.drop_eq_nil_of_le (by omega), lineAt_eq_getElem (by omega), Ne, terminator_eq_nil_iff,
    not_not]
  simp [joinLines]

/-- An output ends in a line feed when the text does or when the close marker brings it. -/
theorem layout_getLast (hl : Lined ls) (h : InOrder ls.length i bs) (hi : i < ls.length) :
    (joinSegments (layout d ls i bs)).getLast? = some '\n' ↔ (joinLines ls).getLast? = some '\n' ∨
      ∃ b ∈ bs, terminator (lineAt ls b.last) = [] ∧ endsInBreak d ls b := by
  induction bs generalizing i with
  | nil =>
    rw [layout, joinSegments_map_kept, hl.drop_getLast hi]
    simp
  | cons b bs ih =>
    obtain ⟨h1, h2, h3, h4⟩ := h
    have shape : ∃ t, joinSegments (layout d ls i (b :: bs)) =
        t ++ (closing d ls b ++ joinSegments (layout d ls (b.last + 1) bs)) := by
      refine ⟨joinLines (between ls i b.start) ++ (opening d ls b ++
        joinLines (between ls b.start (b.last + 1))), ?_⟩
      rw [layout, joinSegments_append, joinSegments_map_kept]
      change _ ++ (_ ++ joinSegments (_ ++ _)) = _
      rw [joinSegments_append, joinSegments_map_kept]
      simp only [List.append_assoc]
      rfl
    obtain ⟨t, ht⟩ := shape
    rw [ht]
    by_cases hlast : b.last + 1 < ls.length
    · -- the block is not the end: what follows it decides
      have rest := ih h4 hlast
      have ne : joinSegments (layout d ls (b.last + 1) bs) ≠ [] := by
        intro hn
        have kept := length_joinSegments_le (layout d ls (b.last + 1) bs)
        rw [hn, keptLines_layout h4] at kept
        exact hl.joinLines_drop_ne_nil hlast (List.length_eq_zero_iff.1 (Nat.le_zero.1 kept))
      have here : terminator (lineAt ls b.last) ≠ [] := (hl.ended_lineAt hlast).terminator_ne_nil
      rw [← List.append_assoc, List.getLast?_append_of_ne_nil _ ne, rest]
      simp [here]
    · have done : bs = [] := by
        cases bs with
        | nil => rfl
        | cons c bs =>
          obtain ⟨c1, c2, c3, -⟩ := h4
          omega
      subst done
      have tail : joinSegments (layout d ls (b.last + 1) []) = [] := by
        rw [layout, List.drop_eq_nil_of_le (by omega)]
        rfl
      have ne : closing d ls b ≠ [] := by
        unfold closing
        rcases lineBreak_cases (lineAt ls b.start) with e | e <;> rw [e] <;> split <;> simp
      rw [tail, List.append_nil, List.getLast?_append_of_ne_nil _ ne, closing_getLast,
        hl.getLast_lineAt (e := b.last) (by omega)]
      simp only [List.mem_singleton, exists_eq_left]
      tauto

theorem output_getLast (hl : Lined ls) (h : InOrder ls.length 0 bs) :
    (joinSegments (layout d ls 0 bs)).getLast? = some '\n' ↔ (joinLines ls).getLast? = some '\n' ∨
      ∃ b ∈ bs, terminator (lineAt ls b.last) = [] ∧ endsInBreak d ls b := by
  rcases Nat.eq_zero_or_pos ls.length with h0 | hpos
  · obtain rfl : ls = [] := List.length_eq_zero_iff.1 h0
    cases bs with
    | nil => simp [layout, joinLines, joinSegments]
    | cons b bs =>
      have := h.2.2.1
      simp at this
  · exact layout_getLast hl h hpos

theorem output_ne_iff (h : InOrder ls.length 0 bs) :
    joinSegments (layout d ls 0 bs) ≠ joinLines ls ↔ bs ≠ [] := by
  cases bs with
  | nil => simp [layout, joinSegments_map_kept]
  | cons b bs =>
    have longer := length_lt_joinSegments_layout d ls 0 b bs
    rw [keptLines_layout h, List.drop_zero] at longer
    refine iff_of_true (fun same => ?_) (by simp)
    rw [same] at longer
    exact absurd longer (Nat.lt_irrefl _)

/-! ## Marker lines -/

def unmarked (d : Dialect) (l : Line) : Bool := !d.isMarker l

/-- The lines, the last with the break that a block puts after it. -/
def settled (ls : List Line) (bs : List Block) : List Line :=
  match bs.getLast? with
  | none => ls
  | some b => breakAt b.start b.last ls

theorem isBlank_of_mem_gap {first last : Line} {c : Char} (h : c ∈ gap first last) : isBlank c := by
  unfold gap at h
  split at h
  · exact isBlank_of_mem_lineBreak h
  · cases h

theorem opensGuard_openingText (d : Dialect) (first : Line) :
    d.opensGuard (openingText d first) := by
  rw [openingText, List.append_assoc, Dialect.opensGuard,
    isDirective_blank_append _ fun c hc => (mem_indent hc).1]
  exact isDirective_marker _ fun c hc => isBlank_of_mem_lineBreak hc

theorem closesGuard_closingText (d : Dialect) (first last : Line) :
    d.closesGuard (closingText d first last) := by
  rw [closingText, List.append_assoc, Dialect.closesGuard,
    isDirective_blank_append _ fun c hc => (mem_indent hc).1]
  apply isDirective_marker _
  intro c hc
  split at hc
  · cases hc
  · exact isBlank_of_mem_lineBreak hc

theorem newline_notMem_indent_append {m : Text} (hm : '\n' ∉ m) (l : Line) :
    '\n' ∉ indent l ++ m := by
  rw [List.mem_append, not_or]
  exact ⟨fun h => (mem_indent h).2.2 rfl, hm⟩

theorem ended_openingText (ho : '\n' ∉ d.openMarker) (first : Line) :
    Ended (openingText d first) :=
  ended_append_lineBreak (newline_notMem_indent_append ho first) first

theorem splitLines_of_ended {l : Line} (h : Ended l) : splitLines l = [l] := by
  have := splitLines_ended_append h []
  rwa [List.append_nil] at this

theorem lined_closingText (hc : '\n' ∉ d.closeMarker) (hn : d.closeMarker ≠ [])
    (first last : Line) : Lined [closingText d first last] := by
  have hb := newline_notMem_indent_append hc first
  unfold closingText
  split
  · rw [List.append_nil]
    exact .unended (by simp [hn]) hb
  · exact .cons (ended_append_lineBreak hb first) .nil

theorem splitLines_openingText (ho : '\n' ∉ d.openMarker) (first : Line) :
    splitLines (openingText d first) = [openingText d first] :=
  splitLines_of_ended (ended_openingText ho first)

theorem splitLines_closingText (hc : '\n' ∉ d.closeMarker) (hn : d.closeMarker ≠ [])
    (first last : Line) :
    splitLines (closingText d first last) = [closingText d first last] := by
  have := splitLines_joinLines (lined_closingText hc hn first last)
  rwa [joinLines, List.flatten_singleton] at this

section
variable (ho : '\n' ∉ d.openMarker) (hc : '\n' ∉ d.closeMarker) (hn : d.closeMarker ≠ [])
include ho hc hn

theorem filter_enclose (hs : s ≤ e) :
    (enclose d s e ls).filter (unmarked d) = (breakAt s e ls).filter (unmarked d) := by
  have opener : unmarked d (openingText d (lineAt ls s)) = false := by
    simp [unmarked, Dialect.isMarker, opensGuard_openingText]
  have closer : unmarked d (closingText d (lineAt ls s) (lineAt ls e)) = false := by
    simp [unmarked, Dialect.isMarker, closesGuard_closingText]
  rw [enclose_eq hs, splitLines_openingText ho, splitLines_closingText hc hn]
  conv_rhs => rw [breakAt_eq hs]
  simp only [List.filter_append, List.filter_singleton, opener, closer, List.nil_append, cond_false]

theorem length_enclose (hs : s ≤ e) (he : e < ls.length) :
    (enclose d s e ls).length = ls.length + 2 := by
  rw [enclose_eq hs, splitLines_openingText ho, splitLines_closingText hc hn]
  simp only [List.length_append, List.length_singleton, List.length_take, List.length_drop]
  rw [length_between _ _ (by rw [breakAt_length]; omega)]
  omega

/-- Without the marker lines an output is the text, save for the break on its last line. -/
theorem filter_encloseAll (hl : Lined ls) (h : InOrder ls.length i bs) :
    (encloseAll d ls bs).filter (unmarked d) = (settled ls bs).filter (unmarked d) ∧
      (encloseAll d ls bs).length = ls.length + 2 * bs.length := by
  induction bs generalizing i with
  | nil => exact ⟨rfl, rfl⟩
  | cons b bs ih =>
    obtain ⟨-, h2, h3, h4⟩ := h
    obtain ⟨hf, hlen⟩ := ih h4
    have hb : b.last < (encloseAll d ls bs).length := by omega
    rw [encloseAll, filter_enclose ho hc hn h2, length_enclose ho hc hn h2 hb, List.length_cons]
    refine ⟨?_, by omega⟩
    cases bs with
    | nil => rfl
    | cons c bs =>
      -- a block follows, so this one does not reach the last line
      have more : b.last + 1 < (encloseAll d ls (c :: bs)).length := by
        rw [List.length_cons] at hlen
        omega
      rw [breakAt_of_terminator
        ((lined_encloseAll hl h4).ended_lineAt more).terminator_ne_nil, hf]
      simp only [settled, List.getLast?_cons_cons]

end

theorem settled_of_getLast (hl : Lined ls) (h : InOrder ls.length i bs)
    (ht : (joinLines ls).getLast? = some '\n') : settled ls bs = ls := by
  unfold settled
  split
  · rfl
  · rename_i b hb
    apply breakAt_of_terminator
    intro hn
    have last := hl.eq_last (h.lt b (List.mem_of_getLast? hb)) hn
    exact (hl.getLast_lineAt last).1 ht hn

theorem closeMarker_ne_nil (h : d.fault? = none) : d.closeMarker ≠ [] := by
  intro hn
  refine (Dialect.fault?_eq_none_iff.1 h).closeMarker ?_
  rw [hn]
  rfl

/-! ## The output -/

/-- The output has the lines of the text in order and, besides them, the pieces of the blocks: an
opening piece before the first line of each block and a closing piece after its last. It ends in a
line feed when the text does, or when a close marker brings one. Where no marker has a line feed in
it, each piece is one line that its own predicate recognises. -/
theorem guardText_adds_markers_only (d : Dialect) (t : Text) :
    let ls := splitLines t
    let g := guardText d t
    (∀ b ∈ g.blocks, b.start ≤ b.last ∧ b.last < ls.length ∧
      b.indent = byteWidth (indent (lineAt ls b.start))) ∧
    g.blocks.Pairwise (fun a b => a.last < b.start) ∧
    g.output = joinSegments (layout d ls 0 g.blocks) ∧
    keptLines (layout d ls 0 g.blocks) = ls ∧
    joinLines (keptLines (layout d ls 0 g.blocks)) = t ∧
    (g.output ≠ t ↔ g.blocks ≠ []) ∧
    (g.output.getLast? = some '\n' ↔ t.getLast? = some '\n' ∨
      ∃ b ∈ g.blocks, terminator (lineAt ls b.last) = [] ∧ endsInBreak d ls b) ∧
    (d.fault? = none → '\n' ∉ d.openMarker → '\n' ∉ d.closeMarker →
      (∀ b ∈ g.blocks,
        opening d ls b = openingText d (lineAt ls b.start) ∧
        closing d ls b = gap (lineAt ls b.start) (lineAt ls b.last) ++
          closingText d (lineAt ls b.start) (lineAt ls b.last) ∧
        splitLines (openingText d (lineAt ls b.start)) = [openingText d (lineAt ls b.start)] ∧
        splitLines (closingText d (lineAt ls b.start) (lineAt ls b.last)) =
          [closingText d (lineAt ls b.start) (lineAt ls b.last)] ∧
        d.opensGuard (openingText d (lineAt ls b.start)) ∧
        d.closesGuard (closingText d (lineAt ls b.start) (lineAt ls b.last))) ∧
      (splitLines g.output).length = ls.length + 2 * g.blocks.length ∧
      (splitLines g.output).filter (unmarked d) = (settled ls g.blocks).filter (unmarked d) ∧
      (t.getLast? = some '\n' → settled ls g.blocks = ls)) := by
  intro ls g
  have lined : Lined ls := lined_splitLines t
  have text : joinLines ls = t := joinLines_splitLines t
  have order : InOrder ls.length 0 g.blocks := blocks_inOrder d ls
  have out : g.output = joinSegments (layout d ls 0 g.blocks) := guardCalls_output d ls
  have kept : keptLines (layout d ls 0 g.blocks) = ls := keptLines_layout order
  refine ⟨fun b hb => blocks_bounds hb, blocks_pairwise d ls, out, kept, by rw [kept, text], ?_,
    ?_, ?_⟩
  · rw [out, ← text]
    exact output_ne_iff order
  · rw [out, ← text]
    exact output_getLast lined order
  · intro hv ho hc
    have hn := closeMarker_ne_nil hv
    obtain ⟨filtered, count⟩ := filter_encloseAll ho hc hn lined order
    have lines : splitLines g.output = encloseAll d ls g.blocks :=
      splitLines_guardCalls_output lined
    rw [lines]
    refine ⟨fun b _ => ?_, count, filtered, fun ht => settled_of_getLast lined order (text ▸ ht)⟩
    exact ⟨rfl, closing_eq b, splitLines_openingText ho _, splitLines_closingText hc hn _ _,
      opensGuard_openingText d _, closesGuard_closingText d _ _⟩

theorem guardText_adds_markers_only_swift :
    let t := "\t print(a)\r\nprint(b".toList
    (guardText .swift t).output =
      "\t #if DEBUG\r\n\t print(a)\r\n\t #endif\r\n#if DEBUG\nprint(b\n#endif".toList ∧
    (splitLines (guardText .swift t).output).length =
      (splitLines t).length + 2 * (guardText .swift t).blocks.length := by
  intro t
  obtain ⟨-, -, -, -, -, -, -, markers⟩ := guardText_adds_markers_only Dialect.swift t
  obtain ⟨-, count, -⟩ := markers (by decide) (by decide) (by decide)
  exact ⟨by decide +kernel, count⟩

/-- A close marker with a line feed at its end gives one to a text that had none. -/
theorem output_ended_of_closeMarker_ended : ¬ ∀ (d : Dialect) (t : Text), d.fault? = none →
    t.getLast? ≠ some '\n' → (guardText d t).output.getLast? ≠ some '\n' := by
  intro h
  exact h { Dialect.swift with closeMarker := "#endif\n".toList } "print(x)".toList (by decide)
    (by decide) (by decide +kernel)

end CallGuard
