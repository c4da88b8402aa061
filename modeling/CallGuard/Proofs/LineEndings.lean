import CallGuard.Proofs.Alike
import CallGuard.Proofs.Pairing
set_option autoImplicit false

/-!
# Line endings

A line that ends in a line feed looks alike when a carriage return stands before it: neither has a
part in the lexical rules, and a pending escape ends with the line in any case. So a text with
carriage returns before its line feeds is guarded just as the text without them.
-/
namespace CallGuard

def crlf (t : Text) : Text := t.flatMap fun c => if c = '\n' then ['\r', '\n'] else [c]

/-- The line ends in a line feed and has no other and no carriage return. -/
def FeedEnded (l : Line) : Prop := ∃ b : Text, '\n' ∉ b ∧ '\r' ∉ b ∧ l = b ++ ['\n']

variable {d : Dialect} {t v w : Text} {l : Line} {ls : List Line} {bs : List Block} {i : Nat}

/-! ## Line breaks of a line -/

theorem after_append_congr (hv : d.Inert v) (hw : d.Inert w)
    (h : ∀ s : Scan, s.after d v = s.after d w) (s : Scan) (l : Line) :
    s.after d (l ++ v) = s.after d (l ++ w) := by
  induction l generalizing s with
  | nil => exact h s
  | cons c l ih =>
    rw [List.cons_append, List.cons_append, Scan.after, Scan.after, step_append_inert hv,
      step_append_inert hw]
    simp only [ih]

theorem alike_breaks (hd : d.BreakFree) (hv : IsBreak v) (hw : IsBreak w) (hvn : v ≠ [])
    (hwn : w ≠ []) (l : Line) : Alike d (l ++ v) (l ++ w) := by
  have iv := hd.inert hv
  have iw := hd.inert hw
  have blank {u : Text} (hu : IsBreak u) : ∀ c ∈ u, isBlank c := by
    intro c hc
    rcases hu c hc with rfl | rfl <;> decide
  have stop {u : Text} (hu : IsBreak u) : u.head?.all (!isIndent ·) := by
    cases u with
    | nil => rfl
    | cons c u =>
      rw [List.head?_cons, Option.all_some]
      rcases hu c List.mem_cons_self with rfl | rfl <;> decide
  constructor
  · rw [callAt?_append_inert hd.tokens iv, callAt?_append_inert hd.tokens iw]
  · rw [callColumn?_append_inert hd.tokens iv, callColumn?_append_inert hd.tokens iw]
  · intro s n
    obtain ⟨gs, hg, eg⟩ := exists_classify_append iv s l
    obtain ⟨hs, hh, eh⟩ := exists_classify_append iw s l
    rw [eg, eh, openDepth_append_inert iv hg, openDepth_append_inert iw hh]
  · rw [callDepth?_append_inert hd.tokens iv, callDepth?_append_inert hd.tokens iw]
  · intro s
    refine after_append_congr iv iw (fun s => ?_) s l
    rw [Scan.after_of_notMem (fun c hc => (iv c hc).2.1) hvn,
      Scan.after_of_notMem (fun c hc => (iw c hc).2.1) hwn]
  · rw [look_append_blank (blank hv), look_append_blank (blank hw)]
  · rw [indent_append_stop l (stop hv), indent_append_stop l (stop hw)]

/-! ## The text with carriage returns -/

theorem crlf_append (t u : Text) : crlf (t ++ u) = crlf t ++ crlf u := List.flatMap_append

theorem crlf_of_notMem (h : '\n' ∉ t) : crlf t = t := by
  induction t with
  | nil => rfl
  | cons c t ih =>
    have hc : c ≠ '\n' := fun e => h (by simp [e])
    change (if c = '\n' then ['\r', '\n'] else [c]) ++ crlf t = _
    rw [if_neg hc, ih fun hm => h (List.mem_cons_of_mem c hm)]
    rfl

theorem crlf_ended {b : Text} (hb : '\n' ∉ b) : crlf (b ++ ['\n']) = b ++ ['\r', '\n'] := by
  rw [crlf_append, crlf_of_notMem hb]
  rfl

theorem crlf_joinLines (ls : List Line) : crlf (joinLines ls) = joinLines (ls.map crlf) := by
  induction ls with
  | nil => rfl
  | cons l ls ih =>
    change crlf (l ++ joinLines ls) = crlf l ++ joinLines (ls.map crlf)
    rw [crlf_append, ih]

theorem Lined.map_crlf (h : Lined ls) : Lined (ls.map crlf) := by
  induction h with
  | nil => exact .nil
  | unended hb hn => exact .unended (by rwa [crlf_of_notMem hn]) (by rwa [crlf_of_notMem hn])
  | cons hl _ ih =>
    obtain ⟨b, hb, rfl⟩ := hl
    refine .cons ⟨b ++ ['\r'], by simp [hb], ?_⟩ ih
    rw [crlf_ended hb, List.append_assoc]
    rfl

theorem splitLines_crlf (t : Text) : splitLines (crlf t) = (splitLines t).map crlf := by
  conv_lhs => rw [← joinLines_splitLines t, crlf_joinLines]
  exact splitLines_joinLines (lined_splitLines t).map_crlf

theorem feedEnded_of_mem (hr : '\r' ∉ t) (he : t = [] ∨ t.getLast? = some '\n') :
    ∀ l ∈ splitLines t, FeedEnded l := by
  intro l hl
  obtain ⟨b, hb, rfl⟩ := forall_ended_splitLines.2 he l hl
  refine ⟨b, hb, fun hm => hr ?_, rfl⟩
  rw [← joinLines_splitLines t]
  exact List.mem_flatten.2 ⟨_, hl, List.mem_append_left _ hm⟩

namespace FeedEnded

theorem alike (hd : d.BreakFree) (h : FeedEnded l) : Alike d (crlf l) l := by
  obtain ⟨b, hb, -, rfl⟩ := h
  rw [crlf_ended hb]
  exact alike_breaks hd (by simp [IsBreak]) (by simp [IsBreak]) (by simp) (by simp) b

theorem terminator_eq (h : FeedEnded l) : terminator l = ['\n'] := by
  obtain ⟨b, -, hr, rfl⟩ := h
  rw [terminator, List.reverse_append, List.reverse_singleton, List.singleton_append]
  split
  · rename_i rest before
    have mem : '\r' ∈ b.reverse := by
      rw [(List.cons.inj before).2]
      exact List.mem_cons_self
    exact absurd (List.mem_reverse.1 mem) hr
  · rfl
  · rename_i other
    exact absurd rfl (other b.reverse)

theorem terminator_crlf (h : FeedEnded l) : terminator (crlf l) = ['\r', '\n'] := by
  obtain ⟨b, hb, -, rfl⟩ := h
  rw [crlf_ended hb, terminator]
  simp

theorem lineBreak_crlf (h : FeedEnded l) : lineBreak (crlf l) = crlf (lineBreak l) := by
  rw [lineBreak, h.terminator_crlf, lineBreak, h.terminator_eq]
  rfl

end FeedEnded

/-! ## The output -/

theorem newline_notMem_indent (l : Line) : '\n' ∉ indent l := fun h => (mem_indent h).2.2 rfl

section
variable (hd : d.BreakFree) (hl : ∀ l ∈ ls, FeedEnded l)
include hd hl

theorem pieceBefore_crlf (ho : '\n' ∉ d.openMarker) (hb : ∀ b ∈ bs, b.start < ls.length) (i : Nat) :
    pieceBefore d (ls.map crlf) bs i = crlf (pieceBefore d ls bs i) := by
  unfold pieceBefore
  cases found : bs.find? (·.start == i) with
  | none => rfl
  | some b =>
    have lt := hb b (List.mem_of_find?_eq_some found)
    have first := hl _ (lineAt_mem lt)
    simp only [lineAt_map lt, (first.alike hd).indent, first.lineBreak_crlf, crlf_append,
      crlf_of_notMem (newline_notMem_indent _), crlf_of_notMem ho]

theorem pieceAfter_crlf (hc : '\n' ∉ d.closeMarker) (hb : ∀ b ∈ bs, b.start < ls.length)
    (hi : i < ls.length) : pieceAfter d (ls.map crlf) bs i = crlf (pieceAfter d ls bs i) := by
  unfold pieceAfter
  cases found : bs.find? (·.last == i) with
  | none => rfl
  | some b =>
    have lt := hb b (List.mem_of_find?_eq_some found)
    have first := hl _ (lineAt_mem lt)
    have last := hl _ (lineAt_mem hi)
    simp only [lineAt_map lt, lineAt_map hi, (first.alike hd).indent, first.lineBreak_crlf,
      last.terminator_eq, last.terminator_crlf, List.cons_ne_nil, if_false, crlf_append,
      crlf_of_notMem (newline_notMem_indent _), crlf_of_notMem hc]

theorem insertPieces_crlf (ho : '\n' ∉ d.openMarker) (hc : '\n' ∉ d.closeMarker)
    (hb : ∀ b ∈ bs, b.start < ls.length) :
    insertPieces d (ls.map crlf) bs = crlf (insertPieces d ls bs) := by
  unfold insertPieces
  rw [crlf, List.flatMap_assoc, List.zipIdx_map, List.flatMap_map]
  apply List.flatMap_congr
  rintro ⟨l, i⟩ hli
  have hi : i < ls.length := by
    obtain ⟨-, lt, -⟩ := List.mem_zipIdx hli
    omega
  change _ = crlf (pieceBefore d ls bs i ++ l ++ pieceAfter d ls bs i)
  rw [crlf_append, crlf_append, ← pieceBefore_crlf hd hl ho hb, ← pieceAfter_crlf hd hl hc hb hi]
  rfl

end

/-- Guarding does not depend on the line endings: with a carriage return before each line feed a text
gets the same blocks, has the same statements that never close and the same uncovered calls, and the
output is that of the text, with a carriage return before each line feed. -/
theorem guardText_crlf (hv : d.fault? = none) (hr : ∀ c ∈ d.roles, isBlank c = false)
    (ho : '\n' ∉ d.openMarker) (hc : '\n' ∉ d.closeMarker)
    (hl : ∀ c ∈ d.lineComment, c ≠ '\r' ∧ c ≠ '\n') (t : Text) (hn : '\r' ∉ t)
    (he : t = [] ∨ t.getLast? = some '\n') :
    let g := guardText d t
    let g' := guardText d (crlf t)
    g'.blocks = g.blocks ∧ g'.unterminated = g.unterminated ∧ g'.output = crlf g.output ∧
      uncovered d (splitLines (crlf t)) = uncovered d (splitLines t) := by
  have hd : d.BreakFree := {
    tokens := (Dialect.fault?_eq_none_iff.1 hv).tokens
    roles := fun c hc => by
      have visible := hr c hc
      constructor <;> rintro rfl <;> revert visible <;> decide
    comment := hl }
  have fed := feedEnded_of_mem hn he
  have alike : ∀ l ∈ splitLines t, Alike d (crlf l) l := fun l hl => (fed l hl).alike hd
  have same := blocks_alike alike
  intro g g'
  have lines : g' = guardCalls d ((splitLines t).map crlf) := by
    rw [← splitLines_crlf]
    rfl
  rw [lines, splitLines_crlf]
  refine ⟨same, unterminated_alike alike, ?_, uncovered_alike alike⟩
  change insertPieces d _ (blocks d _) = _
  rw [same]
  exact insertPieces_crlf hd fed ho hc fun b hb => by
    have := blocks_bounds hb
    omega

/-- A string with an escaped line end in it, a comment, a guard, a declaration, and a statement that
never closes. -/
def foldedText : Text :=
  "\tprint(\"a)\\\n\", b // )\n)\n#if DEBUG\nprint(c)\n#endif\nfunc f()\nprint(d\n".toList

theorem guardText_crlf_foldedText :
    ('\r' ∉ foldedText ∧ foldedText.getLast? = some '\n') ∧
    (guardText .swift (crlf foldedText)).blocks =
      [⟨0, 2, 1, .noOpen⟩, ⟨7, 7, 0, .declaration 6⟩] ∧
    (guardText .swift (crlf foldedText)).unterminated = [7] ∧
    (guardText .swift (crlf foldedText)).output =
      ("\t#if DEBUG\r\n\tprint(\"a)\\\r\n\", b // )\r\n)\r\n\t#endif\r\n#if DEBUG\r\nprint(c)\r\n" ++
        "#endif\r\nfunc f()\r\n#if DEBUG\r\nprint(d\r\n#endif\r\n").toList ∧
    uncovered .swift (splitLines (crlf foldedText)) = [⟨0, 1⟩, ⟨7, 0⟩] := by
  have visible : ∀ c ∈ Dialect.swift.roles, isBlank c = false := Dialect.swift_neutral.visible
  obtain ⟨blocks, unterminated, output, uncovered⟩ := guardText_crlf (d := .swift) (by decide) visible
    (by decide) (by decide) Dialect.swift_neutral.comment foldedText (by decide) (by decide)
  rw [blocks, unterminated, output, uncovered]
  decide +kernel

end CallGuard
