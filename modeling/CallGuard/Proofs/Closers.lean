import CallGuard.Proofs.Breaks
import CallGuard.Proofs.Carry
import Mathlib.Data.List.Find
set_option autoImplicit false

/-!
# Where a statement ends

The characters of the lines from a call on, each in its place and with the depth before it, tell
where the statement ends: on the line of the first delimiter behind the head of the call that takes
the depth from one to zero. The delimiter that closes the call itself stands no later.
-/
namespace CallGuard

/-- A character in its place: its line, its byte offset there, and the depth before it. -/
structure Place where
  line : Nat
  offset : Nat
  depth : Nat
  glyph : Glyph
deriving DecidableEq

def Glyph.depthAfter (d : Dialect) (n : Nat) (g : Glyph) : Nat :=
  if g.opens d then n + 1 else if g.closes d then n - 1 else n

def placesIn (d : Dialect) (line : Nat) : (offset depth : Nat) → List Glyph → List Place
  | _, _, [] => []
  | offset, depth, g :: gs => ⟨line, offset, depth, g⟩ ::
      placesIn d line (offset + g.char.utf8Size) (g.depthAfter d depth) gs

def placesFrom (d : Dialect) : (line depth : Nat) → Scan → List Line → List Place
  | _, _, _, [] => []
  | line, depth, s, l :: ls =>
    let gs := classify d s l
    placesIn d line 0 depth gs ++
      placesFrom d (line + 1) (depthAfter d depth gs) (s.after d l) ls

/-- The characters of the lines from `start` on, classified and counted from there. -/
def places (d : Dialect) (ls : List Line) (start : Nat) : List Place :=
  placesFrom d start 0 {} (ls.drop start)

def Place.closesLast (d : Dialect) (p : Place) : Bool := p.glyph.closes d && p.depth == 1

/-- And it stands behind the head of the call that begins in a column of line `start`. -/
def Place.ends (d : Dialect) (start column : Nat) (p : Place) : Bool :=
  p.closesLast d && (decide (start < p.line) || decide (column < p.offset))

/-- Each place has the depth that is counted from `n` on. -/
def Counted (d : Dialect) : Nat → List Place → Prop
  | _, [] => True
  | n, p :: ps => p.depth = n ∧ Counted d (p.glyph.depthAfter d n) ps

def Place.Before (p q : Place) : Prop := p.line < q.line ∨ p.line = q.line ∧ p.offset < q.offset

variable {d : Dialect} {s : Scan} {i m n offset column start : Nat} {g : Glyph} {gs hs : List Glyph}
  {l : Line} {ls : List Line} {p q w : Place} {ps qs : List Place}

/-- `op`, behind `above`, is the delimiter of a call that begins in a column of line `start`: there
stands a call token, and blanks may follow. -/
def OpensCall (d : Dialect) (start column : Nat) (above : List Place) (op : Place) : Prop :=
  ∃ head w word blanks, above = head ++ w :: (word ++ blanks) ∧
    (w.line = start ∧ w.offset = column ∧ op.line = start) ∧
    (w :: word).map (·.glyph.char) ∈ d.callTokens ∧
    (∀ p ∈ blanks, p.glyph.isCode ' ' ∨ p.glyph.isCode '\t') ∧ op.glyph.opens d

/-- The statement that begins on line `start` ends with `p`, the first place behind `before`. -/
structure EndsFirst (d : Dialect) (ls : List Line) (start column : Nat) (before : List Place)
    (p : Place) : Prop where
  cut : before ++ [p] <+: places d ls start
  ends : p.ends d start column
  first : ∀ q ∈ before, q.ends d start column = false

/-- `c` closes what `op` opens: in the places between the depth does not fall below what `op` makes
of it. -/
structure Matches (d : Dialect) (op : Place) (inside : List Place) (c : Place) : Prop where
  opens : op.glyph.opens d
  closes : c.glyph.closes d
  level : c.depth = op.depth + 1
  within : ∀ q ∈ inside, op.depth + 1 ≤ q.depth

/-! ## Places -/

theorem depthAfter_cons (n : Nat) (g : Glyph) (gs : List Glyph) :
    depthAfter d n (g :: gs) = depthAfter d (g.depthAfter d n) gs := by
  simp only [depthAfter, Glyph.depthAfter]
  split
  · rfl
  · split <;> rfl

theorem placesIn_append (offset n : Nat) (gs hs : List Glyph) :
    placesIn d i offset n (gs ++ hs) = placesIn d i offset n gs ++
      placesIn d i (offset + byteWidth (gs.map Glyph.char)) (depthAfter d n gs) hs := by
  induction gs generalizing offset n with
  | nil => rfl
  | cons g gs ih =>
    rw [List.cons_append, placesIn, ih, placesIn, List.cons_append, depthAfter_cons,
      List.map_cons, byteWidth, Nat.add_assoc]

theorem map_glyph_placesIn (offset n : Nat) (gs : List Glyph) :
    (placesIn d i offset n gs).map Place.glyph = gs := by
  induction gs generalizing offset n with
  | nil => rfl
  | cons g gs ih => rw [placesIn, List.map_cons, ih]

theorem mem_placesIn (h : p ∈ placesIn d i offset n gs) : p.line = i ∧ offset ≤ p.offset := by
  induction gs generalizing offset n with
  | nil => cases h
  | cons g gs ih =>
    rcases List.mem_cons.1 h with rfl | h
    · exact ⟨rfl, Nat.le_refl _⟩
    · exact (ih h).imp_right (Nat.le_trans (Nat.le_add_right _ _))

theorem mem_placesFrom (h : p ∈ placesFrom d i n s ls) : i ≤ p.line ∧ p.line < i + ls.length := by
  induction ls generalizing i n s with
  | nil => cases h
  | cons l ls ih =>
    rw [List.length_cons]
    rcases List.mem_append.1 h with h | h
    · have := (mem_placesIn h).1
      omega
    · have := ih h
      omega

theorem placesIn_inOrder (offset n : Nat) (gs : List Glyph) :
    (placesIn d i offset n gs).Pairwise Place.Before := by
  induction gs generalizing offset n with
  | nil => exact List.Pairwise.nil
  | cons g gs ih =>
    refine List.pairwise_cons.2 ⟨fun q hq => ?_, ih _ _⟩
    obtain ⟨line, far⟩ := mem_placesIn hq
    have := g.char.utf8Size_pos
    exact Or.inr ⟨line.symm, by dsimp only; omega⟩

theorem placesFrom_inOrder (i n : Nat) (s : Scan) (ls : List Line) :
    (placesFrom d i n s ls).Pairwise Place.Before := by
  induction ls generalizing i n s with
  | nil => exact List.Pairwise.nil
  | cons l ls ih =>
    refine List.pairwise_append.2 ⟨placesIn_inOrder _ _ _, ih _ _ _, fun p hp q hq => Or.inl ?_⟩
    have above := (mem_placesIn hp).1
    have below := (mem_placesFrom hq).1
    omega

theorem counted_append (n : Nat) (ps qs : List Place) : Counted d n (ps ++ qs) ↔
    Counted d n ps ∧ Counted d (depthAfter d n (ps.map Place.glyph)) qs := by
  induction ps generalizing n with
  | nil => simp [Counted, depthAfter]
  | cons p ps ih =>
    rw [List.cons_append, Counted, Counted, ih, List.map_cons, depthAfter_cons, and_assoc]

theorem counted_placesIn (offset n : Nat) (gs : List Glyph) :
    Counted d n (placesIn d i offset n gs) := by
  induction gs generalizing offset n with
  | nil => trivial
  | cons g gs ih => exact ⟨rfl, ih _ _⟩

theorem counted_placesFrom (i n : Nat) (s : Scan) (ls : List Line) :
    Counted d n (placesFrom d i n s ls) := by
  induction ls generalizing i n s with
  | nil => trivial
  | cons l ls ih =>
    rw [placesFrom, counted_append, map_glyph_placesIn]
    exact ⟨counted_placesIn _ _ _, ih _ _ _⟩

/-! ## The search for the end -/

theorem openDepth_cons (offset n : Nat) (g : Glyph) (gs : List Glyph) :
    openDepth d n (g :: gs) = if Place.closesLast d ⟨i, offset, n, g⟩ then none
      else openDepth d (g.depthAfter d n) gs := by
  rw [openDepth, Glyph.depthAfter, Place.closesLast]
  cases ho : g.opens d with
  | true => simp [Glyph.closes, ho]
  | false =>
    cases hc : g.closes d with
    | true => simp
    | false => simp

/-- The depth after a line, if none of its delimiters takes the depth from one to zero. -/
theorem find?_placesIn_of_some (i offset : Nat) (h : openDepth d n gs = some m) :
    (placesIn d i offset n gs).find? (·.closesLast d) = none ∧ depthAfter d n gs = m := by
  induction gs generalizing offset n with
  | nil =>
    cases h
    exact ⟨rfl, rfl⟩
  | cons g gs ih =>
    rw [openDepth_cons (i := i) offset] at h
    rw [placesIn, List.find?_cons, depthAfter_cons]
    split at h
    · cases h
    · rename_i no
      rw [Bool.eq_false_iff.2 no]
      exact ih _ h

theorem find?_placesIn_of_none (i offset : Nat) (h : openDepth d n gs = none) :
    ∃ p, (placesIn d i offset n gs).find? (·.closesLast d) = some p ∧ p.line = i := by
  induction gs generalizing offset n with
  | nil => cases h
  | cons g gs ih =>
    rw [openDepth_cons (i := i) offset] at h
    rw [placesIn, List.find?_cons]
    split at h
    · rename_i last
      exact ⟨_, by rw [last], rfl⟩
    · rename_i no
      rw [Bool.eq_false_iff.2 no]
      exact ih _ h

theorem line_find?_append (i offset n : Nat) (gs : List Glyph) (rest : List Place) :
    ((placesIn d i offset n gs ++ rest).find? (·.closesLast d)).map Place.line =
      match openDepth d n gs with
      | none => some i
      | some _ => (rest.find? (·.closesLast d)).map Place.line := by
  rw [List.find?_append]
  cases h : openDepth d n gs with
  | none =>
    obtain ⟨p, found, line⟩ := find?_placesIn_of_none i offset h
    rw [found, Option.some_or, Option.map_some, line]
  | some m => rw [(find?_placesIn_of_some i offset h).1, Option.none_or]

theorem line_find?_placesFrom (i n : Nat) (s : Scan) (ls : List Line) :
    ((placesFrom d i n s ls).find? (·.closesLast d)).map Place.line =
      (closingFrom d s n ls).map (i + ·) := by
  induction ls generalizing i n s with
  | nil => rfl
  | cons l ls ih =>
    rw [placesFrom, line_find?_append]
    cases h : openDepth d n (classify d s l) with
    | none =>
      rw [closingFrom_of_none h]
      rfl
    | some m =>
      rw [closingFrom_cons h, Option.map_map]
      dsimp only
      rw [ih, (find?_placesIn_of_some i 0 h).2]
      congr 1
      funext j
      exact Nat.add_right_comm i 1 j

/-! ## From the line of a call -/

section
variable {head rest : List Place}

theorem not_late (order : (head ++ w :: rest).Pairwise Place.Before)
    (down : ∀ q ∈ head, w.line ≤ q.line) (hp : p ∈ head ++ [w]) : p.ends d w.line w.offset = false := by
  have early : ¬(w.line < p.line ∨ w.offset < p.offset) := by
    rcases List.mem_append.1 hp with hp | hp
    · have le := down p hp
      have before : p.Before w := (List.pairwise_append.1 order).2.2 p hp w List.mem_cons_self
      unfold Place.Before at before
      omega
    · rw [List.mem_singleton.1 hp]
      omega
  have no : (decide (w.line < p.line) || decide (w.offset < p.offset)) = false := by
    simpa using early
  rw [Place.ends, no, Bool.and_false]

theorem find?_ends (order : (head ++ w :: rest).Pairwise Place.Before)
    (down : ∀ q ∈ head, w.line ≤ q.line) :
    (head ++ w :: rest).find? (·.ends d w.line w.offset) = rest.find? (·.closesLast d) := by
  have none : (head ++ [w]).find? (·.ends d w.line w.offset) = none :=
    List.find?_eq_none.2 fun p hp => Bool.eq_false_iff.1 (not_late order down hp)
  have late : ∀ p ∈ rest, p.ends d w.line w.offset = p.closesLast d := by
    intro p hp
    have after : w.Before p :=
      (List.pairwise_cons.1 (List.pairwise_append.1 order).2.1).1 p hp
    have yes : (decide (w.line < p.line) || decide (w.offset < p.offset)) = true := by
      rw [Bool.or_eq_true, decide_eq_true_iff, decide_eq_true_iff]
      exact after.imp_right And.right
    rw [Place.ends, yes, Bool.and_true]
  rw [List.append_cons, List.find?_append, none, Option.none_or, List.find?_congr late]

end

theorem line_le_of_mem (order : (ps ++ [p]).Pairwise Place.Before) (hq : q ∈ ps ++ [p]) :
    q.line ≤ p.line := by
  rcases List.mem_append.1 hq with hq | hq
  · have before : q.Before p := (List.pairwise_append.1 order).2.2 q hq p List.mem_cons_self
    unfold Place.Before at before
    omega
  · rw [List.mem_singleton.1 hq]

theorem lines_of_places (hp : p ∈ places d ls start) : start ≤ p.line ∧ p.line < ls.length := by
  obtain ⟨low, high⟩ := mem_placesFrom hp
  rw [List.length_drop] at high
  omega

theorem byteWidth_cut {as bs : List Glyph} (cut : classify d s l = as ++ bs) :
    byteWidth (as.map Glyph.char) = byteWidth (l.take as.length) := by
  rw [← map_char_classify d s l, cut, List.map_append, List.take_left' (List.length_map _)]

theorem places_cut {as bs : List Glyph} (hs : start < ls.length)
    (cut : classify d {} (lineAt ls start) = as ++ g :: bs) :
    places d ls start = placesIn d start 0 0 as ++
      ⟨start, byteWidth (as.map Glyph.char), depthAfter d 0 as, g⟩ ::
        (placesIn d start (byteWidth (as.map Glyph.char) + g.char.utf8Size)
          (g.depthAfter d (depthAfter d 0 as)) bs ++
            placesFrom d (start + 1) (depthAfter d 0 (classify d {} (lineAt ls start)))
              (Scan.after d {} (lineAt ls start)) (ls.drop (start + 1))) := by
  rw [places, List.drop_eq_getElem_cons hs, ← lineAt_eq_getElem hs, placesFrom, cut,
    placesIn_append, placesIn, Nat.zero_add, List.append_assoc, List.cons_append]

/-- From the head of a call on, the places are searched as the lines are. -/
theorem line_find?_call {k : Nat} {as bs : List Glyph} (hk : callAt? d l = some k)
    (cut : classify d {} l = as ++ g :: bs) (len : as.length = k) (i offset : Nat) (ls : List Line) :
    ((placesIn d i offset (g.depthAfter d (depthAfter d 0 as)) bs ++
      placesFrom d (i + 1) (depthAfter d 0 (classify d {} l)) (Scan.after d {} l) ls).find?
        (·.closesLast d)).map Place.line =
      (closing? d (l :: ls)).map (i + ·) := by
  have head : callDepth? d l = openDepth d (g.depthAfter d (depthAfter d 0 as)) bs := by
    rw [callDepth?, hk, Option.getD_some, cut, ← len, List.append_cons,
      List.take_left' (by simp), List.drop_left' (by simp), depthAfter_append, depthAfter_cons,
      depthAfter]
  rw [line_find?_append]
  cases h : openDepth d (g.depthAfter d (depthAfter d 0 as)) bs with
  | none =>
    rw [closing?_of_none (head.trans h)]
    rfl
  | some n =>
    have all : depthAfter d 0 (classify d {} l) = n := by
      rw [cut, depthAfter_append, depthAfter_cons]
      exact (find?_placesIn_of_some i offset h).2
    rw [closing?_of_some (head.trans h), Option.map_map, all]
    dsimp only
    rw [line_find?_placesFrom]
    congr 1
    funext j
    exact Nat.add_right_comm i 1 j

/-- The search for the end of a statement is one for a place behind the head of its call. -/
theorem closingLine?_eq_find? (hc : callColumn? d (lineAt ls start) = some column) :
    closingLine? d ls start =
      ((places d ls start).find? (·.ends d start column)).map Place.line := by
  rw [callColumn?_eq_map] at hc
  obtain ⟨k, hk, rfl⟩ := Option.map_eq_some_iff.1 hc
  have hs : start < ls.length := lt_length_of_hasCall (d := d) (by rw [hasCall, hk]; rfl)
  obtain ⟨as, g, bs, cut, len⟩ :
      ∃ as g bs, classify d {} (lineAt ls start) = as ++ g :: bs ∧ as.length = k := by
    have hlt : k < (classify d {} (lineAt ls start)).length := callFrom_lt hk
    have cut := List.take_append_drop k (classify d {} (lineAt ls start))
    rw [List.drop_eq_getElem_cons hlt] at cut
    exact ⟨_, _, _, cut.symm, List.length_take_of_le hlt.le⟩
  have width := byteWidth_cut cut
  rw [len] at width
  have whole := places_cut hs cut
  have order : (places d ls start).Pairwise Place.Before := placesFrom_inOrder _ _ _ _
  rw [whole] at order
  have found := find?_ends (d := d) order fun q hq => (mem_placesIn hq).1.ge
  dsimp only at found
  rw [← whole, width] at found
  rw [found, line_find?_call hk cut len, closingLine?, List.drop_eq_getElem_cons hs,
    ← lineAt_eq_getElem hs]

theorem find?_eq_some_iff_endsFirst : (places d ls start).find? (·.ends d start column) = some p ↔
    ∃ before, EndsFirst d ls start column before p := by
  rw [List.find?_eq_some_iff_append]
  constructor
  · rintro ⟨ends, before, after, cut, first⟩
    exact ⟨before, ⟨after, by rw [cut, List.append_assoc, List.singleton_append]⟩, ends,
      fun q hq => by simpa using first q hq⟩
  · rintro ⟨before, ⟨after, cut⟩, ends, first⟩
    exact ⟨ends, before, after, by rw [← cut, List.append_assoc, List.singleton_append],
      fun q hq => by simpa using first q hq⟩

theorem exists_opensCall (ht : ∀ token ∈ d.callTokens, isIdentifier token)
    (hc : callColumn? d (lineAt ls start) = some column) :
    ∃ above op, above ++ [op] <+: places d ls start ∧ OpensCall d start column above op := by
  rw [callColumn?_eq_map] at hc
  obtain ⟨k, hk, rfl⟩ := Option.map_eq_some_iff.1 hc
  have hs : start < ls.length := lt_length_of_hasCall (d := d) (by rw [hasCall, hk]; rfl)
  have named : ∀ token ∈ d.callTokens, token ≠ [] :=
    fun token hm => ne_nil_of_isIdentifier (ht token hm)
  obtain ⟨head, g, word, blanks, op, rest, cut, rfl, token, blank, opens⟩ := exists_call_cut named hk
  have width := byteWidth_cut cut
  have spelled := map_glyph_placesIn (d := d) (i := start) (byteWidth (head.map Glyph.char) +
    g.char.utf8Size) (g.depthAfter d (depthAfter d 0 head)) (word ++ (blanks ++ op :: rest))
  obtain ⟨ws, tail, behind, rfl, spelledTail⟩ := List.map_eq_append_iff.1 spelled
  obtain ⟨bs, ends, rfl, rfl, spelledEnd⟩ := List.map_eq_append_iff.1 spelledTail
  obtain ⟨o, far, rfl, rfl, -⟩ := List.map_eq_cons_iff.1 spelledEnd
  have line : o.line = start :=
    (mem_placesIn (d := d) (by rw [behind]; simp)).1
  have whole := places_cut hs cut
  rw [behind] at whole
  refine ⟨placesIn d start 0 0 head ++ ⟨start, _, depthAfter d 0 head, g⟩ :: (ws ++ bs), o, ?_,
    placesIn d start 0 0 head, _, ws, bs, rfl, ⟨rfl, width, line⟩, ?_, fun p hp => ?_, opens⟩
  · rw [whole]
    simp
  · simpa [Function.comp_def] using token
  · exact blank p.glyph (List.mem_map_of_mem hp)

/-! ## The delimiter that closes the call -/

theorem closes_eq_false (h : g.char ≠ d.closeDelim) : g.closes d = false := by
  simp [Glyph.closes, Glyph.isCode, h]

theorem OpensCall.opens {above : List Place} {op : Place} (h : OpensCall d start column above op) :
    op.glyph.opens d := by
  obtain ⟨-, -, -, -, -, -, -, -, opens⟩ := h
  exact opens

/-- Up to the delimiter of a call no place ends the statement. -/
theorem OpensCall.ends_eq_false {above : List Place} {op : Place}
    (ht : ∀ token ∈ d.callTokens, isIdentifier token) (hw : isWordChar d.closeDelim = false)
    (hblank : d.closeDelim ≠ ' ' ∧ d.closeDelim ≠ '\t')
    (h : OpensCall d start column above op) (hp : above ++ [op] <+: places d ls start) :
    ∀ q ∈ above ++ [op], q.ends d start column = false := by
  obtain ⟨head, w, word, blanks, rfl, ⟨rfl, rfl, -⟩, token, blank, opens⟩ := h
  obtain ⟨rest, whole⟩ := hp
  have whole : head ++ w :: (word ++ (blanks ++ (op :: rest))) = places d ls w.line := by
    simpa using whole
  have order : (head ++ w :: (word ++ (blanks ++ (op :: rest)))).Pairwise Place.Before := by
    rw [whole]
    exact placesFrom_inOrder _ _ _ _
  have low : ∀ q ∈ head, w.line ≤ q.line := by
    intro q hq
    have mem : q ∈ places d ls w.line := by
      rw [← whole]
      exact List.mem_append_left _ hq
    exact (lines_of_places mem).1
  have still (q : Place) (hq : q.glyph.closes d = false) : q.ends d w.line w.offset = false := by
    simp [Place.ends, Place.closesLast, hq]
  intro q hq
  -- before the call, at its head, in the token, in the blanks, the delimiter itself
  simp only [List.mem_append, List.mem_cons, List.not_mem_nil, or_false] at hq
  rcases hq with (hq | rfl | hq | hq) | rfl
  · exact not_late order low (List.mem_append_left _ hq)
  · exact not_late order low (List.mem_append_right _ (List.mem_singleton.2 rfl))
  · refine still q (closes_eq_false fun e => ?_)
    have letter := isWordChar_of_mem (ht _ token)
      (List.mem_map_of_mem (f := fun p : Place => p.glyph.char) (List.mem_cons_of_mem w hq))
    rw [e, hw] at letter
    cases letter
  · refine still q (closes_eq_false fun e => ?_)
    have := blank q hq
    simp only [Glyph.isCode, Bool.and_eq_true, beq_iff_eq, e] at this
    exact this.elim (fun h => hblank.1 h.2) fun h => hblank.2 h.2
  · exact still q (by simp [Glyph.closes, opens])

theorem exists_first_below (hc : Counted d m (ps ++ [p])) (hm : n + 1 ≤ m)
    (closes : p.glyph.closes d) (low : p.depth ≤ n + 1) :
    ∃ inside c, inside ++ [c] <+: ps ++ [p] ∧ c.glyph.closes d ∧ c.depth = n + 1 ∧
      ∀ q ∈ inside, n + 1 ≤ q.depth := by
  induction ps generalizing m with
  | nil =>
    have depth : p.depth = m := hc.1
    exact ⟨[], p, List.prefix_rfl, closes, by omega, by simp⟩
  | cons q ps ih =>
    obtain ⟨depth, rest⟩ := hc
    by_cases here : q.glyph.closes d ∧ q.depth = n + 1
    · exact ⟨[], q, by simp, here.1, here.2, by simp⟩
    · have deep : n + 1 ≤ q.glyph.depthAfter d m := by
        unfold Glyph.depthAfter
        split
        · omega
        · split
          · rename_i hq
            have : q.depth ≠ n + 1 := fun e => here ⟨hq, e⟩
            omega
          · exact hm
      obtain ⟨inside, c, cut, found⟩ := ih rest deep
      refine ⟨q :: inside, c, (List.prefix_cons_inj q).2 cut, found.1, found.2.1, ?_⟩
      exact List.forall_mem_cons.2 ⟨by omega, found.2.2⟩

/-- Where a statement ends, the call is closed. -/
theorem EndsFirst.exists_matches {before above : List Place} {op : Place}
    (h : EndsFirst d ls start column before p) (hp : above ++ [op] <+: places d ls start)
    (opens : op.glyph.opens d) (none : ∀ q ∈ above ++ [op], q.ends d start column = false) :
    ∃ inside c, above ++ op :: (inside ++ [c]) <+: before ++ [p] ∧ Matches d op inside c ∧
      c.line ≤ p.line := by
  -- both begin the same places, and none up to the delimiter of the call ends the statement
  have fits : above ++ [op] <+: before := by
    rcases List.prefix_or_prefix_of_prefix h.cut hp with hle | hle
    · have ends := none p (hle.subset (by simp))
      rw [h.ends] at ends
      cases ends
    · refine (List.prefix_concat_iff.1 hle).resolve_left fun e => ?_
      have ends := none p (by rw [e]; simp)
      rw [h.ends] at ends
      cases ends
  obtain ⟨ps, rfl⟩ := fits
  obtain ⟨rest, whole⟩ := h.cut
  have counted : Counted d 0 (above ++ (op :: (ps ++ [p] ++ rest))) := by
    have := counted_placesFrom (d := d) start 0 {} (ls.drop start)
    rw [← places, ← whole] at this
    simpa using this
  -- past `op` the depth is one more than before it, and at `p` it is back at one
  obtain ⟨depth, counted⟩ := ((counted_append _ _ _).1 counted).2
  rw [← depth, show op.glyph.depthAfter d op.depth = op.depth + 1 from if_pos opens] at counted
  have ends := h.ends
  simp only [Place.ends, Place.closesLast, Bool.and_eq_true, beq_iff_eq] at ends
  obtain ⟨inside, c, cut, closes, level, within⟩ := exists_first_below
    ((counted_append _ _ _).1 counted).1 (Nat.le_refl _) ends.1.1 (by omega)
  refine ⟨inside, c, ?_, ⟨opens, closes, level, within⟩, ?_⟩
  · rw [List.append_assoc, List.append_assoc, List.singleton_append]
    exact (List.prefix_append_right_inj above).2 ((List.prefix_cons_inj op).2 cut)
  · refine line_le_of_mem ((placesFrom_inOrder _ _ _ _).sublist h.cut.sublist) ?_
    have mem : c ∈ ps ++ [p] := cut.subset (by simp)
    rw [List.append_assoc]
    exact List.mem_append_right _ mem

/-- The statement of a call ends on the line of the first delimiter in code behind the head of the
call that takes the depth from one to zero, and never if there is none. That line is at or below the
line of the call, and the delimiter that closes the call stands no later. -/
theorem closingLine?_by_depth (hd : d.fault? = none) (hw : isWordChar d.closeDelim = false)
    (hblank : d.closeDelim ≠ ' ' ∧ d.closeDelim ≠ '\t')
    (hc : callColumn? d (lineAt ls start) = some column) :
    (∀ e, closingLine? d ls start = some e ↔
      ∃ before p, EndsFirst d ls start column before p ∧ p.line = e) ∧
    (closingLine? d ls start = none ↔ ∀ p ∈ places d ls start, p.ends d start column = false) ∧
    (∃ above op, above ++ [op] <+: places d ls start ∧ OpensCall d start column above op) ∧
    ∀ before p, EndsFirst d ls start column before p → start ≤ p.line ∧ p.line < ls.length ∧
      ∀ above op, above ++ [op] <+: places d ls start → OpensCall d start column above op →
        ∃ inside c, above ++ op :: (inside ++ [c]) <+: before ++ [p] ∧ Matches d op inside c ∧
          c.line ≤ p.line := by
  have tokens := (Dialect.fault?_eq_none_iff.1 hd).tokens
  have search := closingLine?_eq_find? hc
  refine ⟨fun e => ?_, ?_, exists_opensCall tokens hc, fun before p h => ?_⟩
  · rw [search, Option.map_eq_some_iff]
    simp only [find?_eq_some_iff_endsFirst]
    exact ⟨fun ⟨p, ⟨before, h⟩, line⟩ => ⟨before, p, h, line⟩,
      fun ⟨before, p, h, line⟩ => ⟨p, ⟨before, h⟩, line⟩⟩
  · rw [search, Option.map_eq_none_iff, List.find?_eq_none]
    simp only [Bool.not_eq_true]
  · obtain ⟨low, high⟩ := lines_of_places (h.cut.subset (by simp) : p ∈ places d ls start)
    exact ⟨low, high, fun above op hp ho => h.exists_matches hp ho.opens
      (ho.ends_eq_false tokens hw hblank hp)⟩

/-- Behind a delimiter that closes nothing, and inside another call, a call with a string over two
lines. -/
def tornCallText : Text := ") f(print(\"a)\\\n)\", b // )\n))\nprint(c)\n".toList

theorem closingLine?_by_depth_tornCallText :
    (∃ before p, EndsFirst .swift (splitLines tornCallText) 0 4 before p ∧ p.line = 2) ∧
      ∃ op inside c, op.line = 0 ∧ Matches .swift op inside c ∧ c.line ≤ 2 := by
  have begins : callColumn? .swift (lineAt (splitLines tornCallText) 0) = some 4 := by decide +kernel
  obtain ⟨ends, -, ⟨above, op, hp, call⟩, closed⟩ := closingLine?_by_depth (by decide +kernel)
    (by decide +kernel) (by decide +kernel) begins
  obtain ⟨before, p, first, line⟩ := (ends 2).1 (by decide +kernel)
  obtain ⟨inside, c, -, closes, near⟩ := (closed before p first).2.2 above op hp call
  obtain ⟨-, -, -, -, -, ⟨-, -, here⟩, -⟩ := call
  exact ⟨⟨before, p, first, line⟩, op, inside, c, here, closes, line ▸ near⟩

end CallGuard
