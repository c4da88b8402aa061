import CallGuard.Proofs.Visiting
import Mathlib.Data.List.Basic
set_option autoImplicit false

/-!
# The layout of an output

An output is laid out from above: the lines up to a block, the opening piece, the lines of the
block, the closing piece, and so on. The pieces are all that is added.
-/
namespace CallGuard

inductive Segment where
  | kept (l : Line)
  | added (t : Text)
deriving DecidableEq

namespace Segment

def text : Segment → Text
  | kept l => l
  | added t => t

def line? : Segment → Option Line
  | kept l => some l
  | added _ => none

end Segment

def joinSegments (gs : List Segment) : Text := gs.flatMap Segment.text

def keptLines (gs : List Segment) : List Line := gs.filterMap Segment.line?

/-- The lines from `i` on that come before `j`. -/
def between (ls : List Line) (i j : Nat) : List Line := (ls.take j).drop i

section
variable (d : Dialect) (ls : List Line)

def opening (b : Block) : Text :=
  indent (lineAt ls b.start) ++ d.openMarker ++ lineBreak (lineAt ls b.start)

/-- Where the last line has no terminator, the break comes before the marker. -/
def closing (b : Block) : Text :=
  if terminator (lineAt ls b.last) = [] then
    lineBreak (lineAt ls b.start) ++ (indent (lineAt ls b.start) ++ d.closeMarker)
  else indent (lineAt ls b.start) ++ d.closeMarker ++ lineBreak (lineAt ls b.start)

def layout (i : Nat) : List Block → List Segment
  | [] => (ls.drop i).map .kept
  | b :: bs =>
    (between ls i b.start).map .kept ++ .added (opening d ls b) ::
      ((between ls b.start (b.last + 1)).map .kept ++
        .added (closing d ls b) :: layout (b.last + 1) bs)

end

/-- The blocks stand one after the other on the lines from `i` on, of which there are `n`. -/
def InOrder (n : Nat) : (i : Nat) → List Block → Prop
  | _, [] => True
  | i, b :: bs => i ≤ b.start ∧ b.start ≤ b.last ∧ b.last < n ∧ InOrder n (b.last + 1) bs

variable {d : Dialect} {ls : List Line}

theorem drop_eq_between_append {i j : Nat} (h : i ≤ j) :
    ls.drop i = between ls i j ++ ls.drop j := by
  rw [between, List.drop_take]
  conv_lhs => rw [← List.take_append_drop (j - i) (ls.drop i), List.drop_drop,
    show i + (j - i) = j by omega]

theorem length_between (ms : List Line) (i : Nat) {j : Nat} (h : j ≤ ms.length) :
    (between ms i j).length = j - i := by
  simp [between, Nat.min_eq_left h]

theorem take_eq_append_between (ls : List Line) {s i : Nat} (h : s ≤ i) :
    ls.take i = ls.take s ++ between ls s i := by
  have split : ls.take i = (ls.take i).take s ++ (ls.take i).drop s :=
    (List.take_append_drop s (ls.take i)).symm
  rw [List.take_take, Nat.min_eq_left h] at split
  exact split

theorem between_cons {ms : List Line} {i j : Nat} (hij : i < j) (hj : j ≤ ms.length) :
    between ms i j = lineAt ms i :: between ms (i + 1) j := by
  have hi : i < (ms.take j).length := by
    rw [List.length_take]
    omega
  rw [between, List.drop_eq_getElem_cons hi, lineAt_eq_getElem (by omega), List.getElem_take, between]

theorem keptLines_append (gs hs : List Segment) :
    keptLines (gs ++ hs) = keptLines gs ++ keptLines hs :=
  List.filterMap_append

theorem keptLines_map_kept (ms : List Line) : keptLines (ms.map .kept) = ms := by
  induction ms with
  | nil => rfl
  | cons m ms ih => exact congrArg (m :: ·) ih

theorem joinSegments_append (gs hs : List Segment) :
    joinSegments (gs ++ hs) = joinSegments gs ++ joinSegments hs :=
  List.flatMap_append

theorem joinSegments_map_kept (ms : List Line) : joinSegments (ms.map .kept) = joinLines ms := by
  induction ms with
  | nil => rfl
  | cons m ms ih => exact congrArg (m ++ ·) ih

theorem keptLines_layout {n i : Nat} {bs : List Block} (h : InOrder n i bs) :
    keptLines (layout d ls i bs) = ls.drop i := by
  induction bs generalizing i with
  | nil => exact keptLines_map_kept _
  | cons b bs ih =>
    obtain ⟨h1, h2, -, h4⟩ := h
    have tail := ih h4
    rw [layout, keptLines_append, keptLines_map_kept]
    change _ ++ keptLines (_ ++ _) = _
    rw [keptLines_append, keptLines_map_kept]
    change _ ++ (_ ++ keptLines (layout d ls (b.last + 1) bs)) = _
    rw [tail, ← drop_eq_between_append (by omega), ← drop_eq_between_append h1]

theorem InOrder.ge {n i : Nat} {bs : List Block} (h : InOrder n i bs) :
    ∀ b ∈ bs, i ≤ b.start ∧ i ≤ b.last := by
  induction bs generalizing i with
  | nil => simp
  | cons b bs ih =>
    obtain ⟨h1, h2, -, h4⟩ := h
    intro c hc
    rcases List.mem_cons.1 hc with rfl | hc
    · exact ⟨h1, Nat.le_trans h1 h2⟩
    · have := ih h4 c hc
      omega

theorem InOrder.lt {n i : Nat} {bs : List Block} (h : InOrder n i bs) : ∀ b ∈ bs, b.last < n := by
  induction bs generalizing i with
  | nil => simp
  | cons b bs ih =>
    obtain ⟨-, -, h3, h4⟩ := h
    exact List.forall_mem_cons.2 ⟨h3, ih h4⟩

def dressed (d : Dialect) (ls : List Line) (bs : List Block) (x : Line × Nat) : Text :=
  pieceBefore d ls bs x.2 ++ x.1 ++ pieceAfter d ls bs x.2

theorem insertPieces_eq (bs : List Block) :
    insertPieces d ls bs = (ls.zipIdx 0).flatMap (dressed d ls bs) := rfl

theorem pieceBefore_eq_nil {bs : List Block} {j : Nat} (h : ∀ b ∈ bs, b.start ≠ j) :
    pieceBefore d ls bs j = [] := by
  have : bs.find? (·.start == j) = none := List.find?_eq_none.2 fun b hb => by simpa using h b hb
  rw [pieceBefore, this]

theorem pieceAfter_eq_nil {bs : List Block} {j : Nat} (h : ∀ b ∈ bs, b.last ≠ j) :
    pieceAfter d ls bs j = [] := by
  have : bs.find? (·.last == j) = none := List.find?_eq_none.2 fun b hb => by simpa using h b hb
  rw [pieceAfter, this]

theorem pieceBefore_cons (b : Block) (bs : List Block) (j : Nat) :
    pieceBefore d ls (b :: bs) j = if b.start = j then opening d ls b else pieceBefore d ls bs j := by
  by_cases h : b.start = j <;> simp [pieceBefore, h, opening]

theorem pieceAfter_cons (b : Block) (bs : List Block) (j : Nat) :
    pieceAfter d ls (b :: bs) j = if b.last = j then closing d ls b else pieceAfter d ls bs j := by
  by_cases h : b.last = j
  · subst h
    simp [pieceAfter, closing]
  · simp [pieceAfter, h]

theorem dressed_untouched {bs : List Block} {i : Nat} (ms : List Line)
    (h : ∀ j, i ≤ j → j < i + ms.length → ∀ b ∈ bs, b.start ≠ j ∧ b.last ≠ j) :
    (ms.zipIdx i).flatMap (dressed d ls bs) = joinLines ms := by
  induction ms generalizing i with
  | nil => rfl
  | cons m ms ih =>
    have here := h i (by omega) (by simp)
    have tail := ih (i := i + 1) fun j h1 h2 => h j (by omega) (by simp only [List.length_cons]; omega)
    rw [List.zipIdx_cons, List.flatMap_cons, tail, dressed, pieceBefore_eq_nil fun b hb => (here b hb).1,
      pieceAfter_eq_nil fun b hb => (here b hb).2, List.append_nil]
    rfl

theorem flatMap_zipIdx_last (q : Text) (m : Line) (ms : List Line) (s : Nat) :
    ((m :: ms).zipIdx s).flatMap (fun x => x.1 ++ if x.2 = s + ms.length then q else []) =
      joinLines (m :: ms) ++ q := by
  induction ms generalizing m s with
  | nil => simp [joinLines]
  | cons k ms ih =>
    have tail := ih k (s + 1)
    rw [show s + 1 + ms.length = s + (k :: ms).length by simp only [List.length_cons]; omega] at tail
    rw [List.zipIdx_cons, List.flatMap_cons, tail]
    simp [joinLines]

theorem dressed_block {n : Nat} {b : Block} {bs : List Block} (h : b.start ≤ b.last)
    (hl : b.last < ls.length) (hbs : InOrder n (b.last + 1) bs) :
    ((between ls b.start (b.last + 1)).zipIdx b.start).flatMap (dressed d ls (b :: bs)) =
      opening d ls b ++ (joinLines (between ls b.start (b.last + 1)) ++ closing d ls b) := by
  have hn := length_between ls b.start (by omega : b.last + 1 ≤ ls.length)
  have later := hbs.ge
  generalize between ls b.start (b.last + 1) = ms at hn ⊢
  cases ms with
  | nil => simp only [List.length_nil] at hn; omega
  | cons m ms =>
    rw [List.length_cons] at hn
    have ends := flatMap_zipIdx_last (closing d ls b) m ms b.start
    rw [List.zipIdx_cons, List.flatMap_cons] at ends ⊢
    have first : dressed d ls (b :: bs) (m, b.start) = opening d ls b ++
        (m ++ if b.start = b.start + ms.length then closing d ls b else []) := by
      simp only [dressed]
      rw [pieceBefore_cons, if_pos rfl, pieceAfter_cons, List.append_assoc]
      congr 2
      by_cases e : b.last = b.start
      · rw [if_pos e, if_pos (by omega)]
      · rw [if_neg e, if_neg (by omega), pieceAfter_eq_nil fun c hc => by have := later c hc; omega]
    have rest : (ms.zipIdx (b.start + 1)).flatMap (dressed d ls (b :: bs)) =
        (ms.zipIdx (b.start + 1)).flatMap
          (fun x => x.1 ++ if x.2 = b.start + ms.length then closing d ls b else []) := by
      apply List.flatMap_congr
      intro x hx
      have hj := List.mem_zipIdx hx
      rw [dressed, pieceBefore_cons, if_neg (by omega), pieceAfter_cons,
        pieceBefore_eq_nil fun c hc => by have := later c hc; omega, List.nil_append]
      congr 1
      by_cases e : b.last = x.2
      · rw [if_pos e, if_pos (by omega)]
      · rw [if_neg e, if_neg (by omega), pieceAfter_eq_nil fun c hc => by have := later c hc; omega]
    rw [first, rest, List.append_assoc, ends]

theorem joinSegments_layout_cons (i : Nat) (b : Block) (bs : List Block) :
    joinSegments (layout d ls i (b :: bs)) = joinLines (between ls i b.start) ++ (opening d ls b ++
      (joinLines (between ls b.start (b.last + 1)) ++
        (closing d ls b ++ joinSegments (layout d ls (b.last + 1) bs)))) := by
  rw [layout, joinSegments_append, joinSegments_map_kept]
  change _ ++ (_ ++ joinSegments (_ ++ _)) = _
  rw [joinSegments_append, joinSegments_map_kept]
  rfl

theorem joinSegments_layout {n i : Nat} {bs : List Block} (hn : n = ls.length)
    (h : InOrder n i bs) :
    ((ls.drop i).zipIdx i).flatMap (dressed d ls bs) = joinSegments (layout d ls i bs) := by
  induction bs generalizing i with
  | nil => rw [layout, joinSegments_map_kept, dressed_untouched _ (by simp)]
  | cons b bs ih =>
    obtain ⟨h1, h2, h3, h4⟩ := h
    have later := h4.ge
    have tail : ((ls.drop (b.last + 1)).zipIdx (b.last + 1)).flatMap (dressed d ls (b :: bs)) =
        joinSegments (layout d ls (b.last + 1) bs) := by
      rw [← ih h4]
      apply List.flatMap_congr
      intro x hx
      have hj := List.mem_zipIdx hx
      rw [dressed, pieceBefore_cons, if_neg (by omega), pieceAfter_cons, if_neg (by omega), dressed]
    have before : ((between ls i b.start).zipIdx i).flatMap (dressed d ls (b :: bs)) =
        joinLines (between ls i b.start) := by
      apply dressed_untouched _
      intro j hj hlt c hc
      rw [length_between _ _ (by omega)] at hlt
      rcases List.mem_cons.1 hc with rfl | hc
      · omega
      · have := later c hc
        omega
    have l1 := length_between ls i (by omega : b.start ≤ ls.length)
    have l2 := length_between ls b.start (by omega : b.last + 1 ≤ ls.length)
    rw [drop_eq_between_append h1, drop_eq_between_append (j := b.last + 1) (by omega : b.start ≤ _),
      List.zipIdx_append, List.zipIdx_append, List.flatMap_append, List.flatMap_append, before,
      l1, l2, show i + (b.start - i) = b.start by omega,
      show b.start + (b.last + 1 - b.start) = b.last + 1 by omega,
      dressed_block h2 (by omega) h4, tail, joinSegments_layout_cons]
    simp only [List.append_assoc]

theorem inOrder_of_pairwise {n i : Nat} {bs : List Block}
    (hb : ∀ b ∈ bs, i ≤ b.start ∧ b.start ≤ b.last ∧ b.last < n)
    (hp : bs.Pairwise fun a b => a.last < b.start) : InOrder n i bs := by
  induction bs generalizing i with
  | nil => trivial
  | cons b bs ih =>
    obtain ⟨h1, h2, h3⟩ := hb b List.mem_cons_self
    obtain ⟨later, hp⟩ := List.pairwise_cons.1 hp
    refine ⟨h1, h2, h3, ih (fun c hc => ?_) hp⟩
    obtain ⟨-, hc2, hc3⟩ := hb c (List.mem_cons_of_mem b hc)
    exact ⟨later c hc, hc2, hc3⟩

theorem mem_blocks {b : Block} : b ∈ blocks d ls ↔ ∃ st ∈ statements d ls, ∃ r,
    verdict d ls st.start = .unguarded r ∧
      b = ⟨st.start, st.last, byteWidth (indent (lineAt ls st.start)), r⟩ := by
  simp only [blocks, List.mem_filterMap]
  refine exists_congr fun st => and_congr_right fun _ => ?_
  unfold block?
  cases verdict d ls st.start with
  | guarded i j => simp
  | unguarded r => simp [eq_comm]

theorem blocks_pairwise (d : Dialect) (ls : List Line) :
    (blocks d ls).Pairwise fun a b => a.last < b.start := by
  apply (statements_pairwise d ls).filterMap _
  intro a b h x hx y hy
  have keeps {st : Span} {b : Block} (h : block? d ls st = some b) :
      b.start = st.start ∧ b.last = st.last := by
    unfold block? at h
    split at h
    · cases h
    · cases h
      exact ⟨rfl, rfl⟩
  rw [(keeps hx).2, (keeps hy).1]
  exact h

theorem blocks_bounds {b : Block} (h : b ∈ blocks d ls) :
    b.start ≤ b.last ∧ b.last < ls.length ∧ b.indent = byteWidth (indent (lineAt ls b.start)) := by
  obtain ⟨st, hst, r, -, rfl⟩ := mem_blocks.1 h
  exact ⟨start_le_last hst, last_lt hst, rfl⟩

theorem blocks_inOrder (d : Dialect) (ls : List Line) : InOrder ls.length 0 (blocks d ls) :=
  inOrder_of_pairwise (fun _ hb => ⟨Nat.zero_le _, (blocks_bounds hb).1, (blocks_bounds hb).2.1⟩)
    (blocks_pairwise d ls)

theorem guardCalls_output (d : Dialect) (ls : List Line) :
    (guardCalls d ls).output = joinSegments (layout d ls 0 (blocks d ls)) := by
  change insertPieces d ls (blocks d ls) = _
  rw [insertPieces_eq]
  exact joinSegments_layout rfl (blocks_inOrder d ls)

end CallGuard
