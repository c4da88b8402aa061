import CallGuard.Proofs.Splitting
set_option autoImplicit false

/-!
# The statements of a text

`statements` lists the statements by one walk over the lines. Here the walk is compared with its
stations: a line without a call leads to the next line, the first line of a statement to the line
after its last.
-/
namespace CallGuard

variable {d : Dialect}

theorem closingFrom_lt {s : Scan} {n k : Nat} {ls : List Line} (h : closingFrom d s n ls = some k) :
    k < ls.length := by
  induction ls generalizing s n k with
  | nil => simp [closingFrom] at h
  | cons l ls ih =>
    rw [closingFrom] at h
    split at h
    · cases h
      simp
    · obtain ⟨j, hj, rfl⟩ := Option.map_eq_some_iff.1 h
      have := ih hj
      simp only [List.length_cons]
      omega

theorem closing?_lt {k : Nat} {ls : List Line} (h : closing? d ls = some k) : k < ls.length := by
  cases ls with
  | nil => simp [closing?] at h
  | cons l ls =>
    rw [closing?] at h
    split at h
    · cases h
      simp
    · obtain ⟨j, hj, rfl⟩ := Option.map_eq_some_iff.1 h
      have := closingFrom_lt hj
      simp only [List.length_cons]
      omega

theorem extent_le (l : Line) (ls : List Line) : extent d (l :: ls) ≤ ls.length := by
  unfold extent
  cases h : closing? d (l :: ls) with
  | none => simp
  | some k =>
    have := closing?_lt h
    simp only [List.length_cons] at this
    simp only [Option.getD_some]
    omega

theorem lastLine_eq (ls : List Line) (i : Nat) : lastLine d ls i = i + extent d (ls.drop i) := by
  unfold lastLine closingLine? extent
  cases closing? d (ls.drop i) <;> rfl

theorem le_lastLine (d : Dialect) (ls : List Line) (i : Nat) : i ≤ lastLine d ls i := by
  rw [lastLine_eq]
  exact Nat.le_add_right i _

theorem statementsFrom_skip {i : Nat} (k : Nat) (ls : List Line) :
    statementsFrom d k i ls = statementsFrom d 0 (i + k) (ls.drop k) := by
  induction k generalizing i ls with
  | zero => rfl
  | succ k ih =>
    cases ls with
    | nil => rfl
    | cons l ls =>
      rw [statementsFrom, ih, List.drop_succ_cons, show i + 1 + k = i + (k + 1) by omega]

/-- Counting the lines from elsewhere moves the spans. -/
theorem statementsFrom_add (j k i : Nat) (ls : List Line) :
    statementsFrom d k (i + j) ls =
      (statementsFrom d k i ls).map fun st => ⟨st.start + j, st.last + j⟩ := by
  induction ls generalizing k i with
  | nil => rfl
  | cons l ls ih =>
    have next : i + j + 1 = i + 1 + j := by omega
    cases k with
    | succ k => rw [statementsFrom, statementsFrom, next, ih]
    | zero =>
      rw [statementsFrom, statementsFrom, next, ih, ih]
      split
      · rw [List.map_cons, Nat.add_right_comm]
      · rfl

/-- A statement begins on the line of a call and reaches as far as its nesting. -/
theorem mem_statementsFrom {k i : Nat} {ls : List Line} {st : Span}
    (h : st ∈ statementsFrom d k i ls) : ∃ j, k ≤ j ∧ st.start = i + j ∧ j < ls.length ∧
      hasCall d (lineAt ls j) ∧ st.last = i + j + extent d (ls.drop j) := by
  induction ls generalizing k i with
  | nil => simp [statementsFrom] at h
  | cons l ls ih =>
    have later {k' : Nat} (hk : k ≤ k' + 1) (h : st ∈ statementsFrom d k' (i + 1) ls) : ∃ j, k ≤ j ∧
        st.start = i + j ∧ j < (l :: ls).length ∧ hasCall d (lineAt (l :: ls) j) ∧
        st.last = i + j + extent d ((l :: ls).drop j) := by
      obtain ⟨j, hj, hs, hlt, hc, hl⟩ := ih h
      refine ⟨j + 1, by omega, by omega, by simpa using hlt, hc, ?_⟩
      rw [hl, List.drop_succ_cons]
      omega
    cases k with
    | succ k => exact later (by omega) h
    | zero =>
      rw [statementsFrom] at h
      split at h
      · rename_i hc
        rcases List.mem_cons.1 h with rfl | h
        · exact ⟨0, by omega, rfl, by simp, hc, rfl⟩
        · exact later (by omega) h
      · exact later (by omega) h

theorem statementsFrom_pairwise (k i : Nat) (ls : List Line) :
    (statementsFrom d k i ls).Pairwise fun a b => a.last < b.start := by
  induction ls generalizing k i with
  | nil => exact .nil
  | cons l ls ih =>
    cases k with
    | succ k => exact ih k (i + 1)
    | zero =>
      rw [statementsFrom]
      split
      · refine List.pairwise_cons.2 ⟨?_, ih _ _⟩
        intro st hst
        obtain ⟨j, hj, hs, -⟩ := mem_statementsFrom hst
        change i + extent d (l :: ls) < st.start
        omega
      · exact ih _ _

section
variable {ls : List Line} {st : Span}

theorem mem_statements (h : st ∈ statements d ls) : st.start < ls.length ∧
    hasCall d (lineAt ls st.start) ∧ st.last = lastLine d ls st.start := by
  obtain ⟨j, -, hs, hlt, hc, hl⟩ := mem_statementsFrom h
  obtain rfl : st.start = j := by omega
  exact ⟨hlt, hc, by rw [hl, lastLine_eq]; omega⟩

theorem start_le_last (h : st ∈ statements d ls) : st.start ≤ st.last := by
  rw [(mem_statements h).2.2, lastLine_eq]
  omega

theorem lastLine_lt {i : Nat} (h : i < ls.length) : lastLine d ls i < ls.length := by
  rw [lastLine_eq, List.drop_eq_getElem_cons h]
  have := extent_le (d := d) ls[i] (ls.drop (i + 1))
  rw [List.length_drop] at this
  omega

theorem last_lt (h : st ∈ statements d ls) : st.last < ls.length := by
  rw [(mem_statements h).2.2]
  exact lastLine_lt (mem_statements h).1

theorem statements_pairwise (d : Dialect) (ls : List Line) :
    (statements d ls).Pairwise fun a b => a.last < b.start :=
  statementsFrom_pairwise 0 0 ls

theorem statement_ext {a b : Span} (ha : a ∈ statements d ls) (hb : b ∈ statements d ls)
    (h : a.start = b.start) : a = b := by
  obtain ⟨i, j⟩ := a
  obtain ⟨k, l⟩ := b
  obtain rfl : i = k := h
  rw [show j = lastLine d ls i from (mem_statements ha).2.2,
    show l = lastLine d ls i from (mem_statements hb).2.2]

theorem statements_apart {a b : Span} (ha : a ∈ statements d ls) (hb : b ∈ statements d ls) :
    a = b ∨ a.last < b.start ∨ b.last < a.start := by
  obtain ⟨i, hi, rfl⟩ := List.mem_iff_getElem.1 ha
  obtain ⟨j, hj, rfl⟩ := List.mem_iff_getElem.1 hb
  have order := List.pairwise_iff_getElem.1 (statements_pairwise d ls)
  rcases Nat.lt_trichotomy i j with h | rfl | h
  · exact Or.inr (Or.inl (order i j hi hj h))
  · exact Or.inl rfl
  · exact Or.inr (Or.inr (order j i hj hi h))

end

/-- The stations of the walk from above. -/
inductive Reached (d : Dialect) (ls : List Line) : Nat → Prop where
  | zero : Reached d ls 0
  | next {i : Nat} (h : Reached d ls i) (hc : hasCall d (lineAt ls i) = false) :
      Reached d ls (i + 1)
  | jump {i : Nat} (h : Reached d ls i) (hc : hasCall d (lineAt ls i)) :
      Reached d ls (lastLine d ls i + 1)

/-- A station on which a call begins. -/
def Visited (d : Dialect) (ls : List Line) (i : Nat) : Prop :=
  Reached d ls i ∧ hasCall d (lineAt ls i)

theorem lineAt_eq_getElem {ls : List Line} {i : Nat} (h : i < ls.length) : lineAt ls i = ls[i] := by
  rw [lineAt, List.getElem?_eq_getElem h, Option.getD_some]

theorem lineAt_drop (ls : List Line) (i j : Nat) : lineAt (ls.drop i) j = lineAt ls (i + j) := by
  rw [lineAt, List.getElem?_drop, lineAt]

theorem lt_length_of_hasCall {ls : List Line} {i : Nat} (h : hasCall d (lineAt ls i)) :
    i < ls.length := by
  apply Nat.lt_of_not_le
  intro hn
  rw [lineAt, List.getElem?_eq_none hn] at h
  exact absurd h Bool.false_ne_true

theorem walk_next {ls : List Line} {i : Nat} (hc : hasCall d (lineAt ls i) = false) :
    statementsFrom d 0 i (ls.drop i) = statementsFrom d 0 (i + 1) (ls.drop (i + 1)) := by
  by_cases h : i < ls.length
  · rw [lineAt_eq_getElem h] at hc
    rw [List.drop_eq_getElem_cons h, statementsFrom, if_neg (by simp [hc])]
  · rw [List.drop_eq_nil_of_le (by omega), List.drop_eq_nil_of_le (by omega)]
    rfl

theorem walk_jump {ls : List Line} {i : Nat} (hc : hasCall d (lineAt ls i)) :
    statementsFrom d 0 i (ls.drop i) = ⟨i, lastLine d ls i⟩ ::
      statementsFrom d 0 (lastLine d ls i + 1) (ls.drop (lastLine d ls i + 1)) := by
  have h := lt_length_of_hasCall hc
  rw [lineAt_eq_getElem h] at hc
  have hd := List.drop_eq_getElem_cons h
  rw [lastLine_eq, hd, statementsFrom, if_pos hc, statementsFrom_skip, List.drop_drop,
    Nat.add_right_comm]

/-- At a station the statements yet to come are those of the lines from there on. -/
theorem Reached.statements_eq {ls : List Line} {i : Nat} (h : Reached d ls i) :
    ∃ before, statements d ls = before ++ statementsFrom d 0 i (ls.drop i) := by
  induction h with
  | zero => exact ⟨[], rfl⟩
  | next _ hc ih =>
    obtain ⟨before, e⟩ := ih
    exact ⟨before, by rw [e, walk_next hc]⟩
  | @jump i _ hc ih =>
    obtain ⟨before, e⟩ := ih
    exact ⟨before ++ [⟨i, lastLine d ls i⟩], by rw [e, walk_jump hc, List.append_assoc]; rfl⟩

theorem Reached.visited_of_mem {ls : List Line} {i : Nat} {st : Span} (h : Reached d ls i)
    (hst : st ∈ statementsFrom d 0 i (ls.drop i)) : Visited d ls st.start := by
  -- the lines left over get fewer at each station
  induction hn : ls.length - i using Nat.strongRecOn generalizing i with
  | ind n ih =>
    by_cases hi : i < ls.length
    · cases hc : hasCall d (lineAt ls i) with
      | false =>
        rw [walk_next hc] at hst
        exact ih (ls.length - (i + 1)) (by omega) (h.next hc) hst rfl
      | true =>
        rw [walk_jump hc] at hst
        rcases List.mem_cons.1 hst with rfl | hst
        · exact ⟨h, hc⟩
        · have hle := le_lastLine d ls i
          exact ih (ls.length - (lastLine d ls i + 1)) (by omega) (h.jump hc) hst rfl
    · rw [List.drop_eq_nil_of_le (by omega)] at hst
      simp [statementsFrom] at hst

theorem mem_statements_iff {ls : List Line} {st : Span} :
    st ∈ statements d ls ↔ Visited d ls st.start ∧ st.last = lastLine d ls st.start := by
  constructor
  · exact fun h => ⟨Reached.zero.visited_of_mem h, (mem_statements h).2.2⟩
  · rintro ⟨⟨hr, hc⟩, hl⟩
    obtain ⟨before, e⟩ := hr.statements_eq
    rw [e, walk_jump hc, ← hl]
    exact List.mem_append_right before List.mem_cons_self

theorem walk_eq_nil {ls : List Line} {i : Nat} (h : statementsFrom d 0 i (ls.drop i) = []) {j : Nat}
    (hj : i ≤ j) : hasCall d (lineAt ls j) = false := by
  induction hn : ls.length - i using Nat.strongRecOn generalizing i with
  | ind n ih =>
    by_cases hi : i < ls.length
    · cases hc : hasCall d (lineAt ls i) with
      | true =>
        rw [walk_jump hc] at h
        cases h
      | false =>
        rw [walk_next hc] at h
        rcases Nat.eq_or_lt_of_le hj with rfl | hlt
        · exact hc
        · exact ih (ls.length - (i + 1)) (by omega) h hlt rfl
    · rw [lineAt, List.getElem?_eq_none (by omega)]
      rfl

theorem call_mem_statementsFrom {k i j : Nat} {ls : List Line} (hc : hasCall d (lineAt ls j)) :
    j < k ∨ ∃ st ∈ statementsFrom d k i ls, st.start ≤ i + j ∧ i + j ≤ st.last := by
  induction ls generalizing k i j with
  | nil => exact absurd hc Bool.false_ne_true
  | cons l ls ih =>
    cases k with
    | succ k =>
      cases j with
      | zero => exact Or.inl (Nat.succ_pos k)
      | succ j =>
        rw [statementsFrom, show i + (j + 1) = i + 1 + j by omega]
        exact (ih (k := k) (i := i + 1) hc).imp_left Nat.succ_lt_succ
    | zero =>
      right
      rw [statementsFrom]
      cases j with
      | zero =>
        rw [if_pos (show hasCall d l from hc)]
        exact ⟨_, List.mem_cons_self, Nat.le_refl i, Nat.le_add_right i _⟩
      | succ j =>
        rw [show i + (j + 1) = i + 1 + j by omega]
        split
        · rcases ih (k := extent d (l :: ls)) (i := i + 1) hc with inside | ⟨st, hst, h⟩
          · refine ⟨_, List.mem_cons_self, ?_, ?_⟩
            · change i ≤ i + 1 + j
              omega
            · change i + 1 + j ≤ i + extent d (l :: ls)
              omega
          · exact ⟨st, List.mem_cons_of_mem _ hst, h⟩
        · exact (ih (k := 0) (i := i + 1) hc).resolve_left (Nat.not_lt_zero j)

theorem exists_statement_around {j : Nat} {ls : List Line} (hc : hasCall d (lineAt ls j)) :
    ∃ st ∈ statements d ls, st.start ≤ j ∧ j ≤ st.last := by
  have := (call_mem_statementsFrom (k := 0) (i := 0) hc).resolve_left (Nat.not_lt_zero j)
  rwa [Nat.zero_add] at this

theorem walk_eq_cons {ls : List Line} {i : Nat} {st : Span} {sts : List Span}
    (h : statementsFrom d 0 i (ls.drop i) = st :: sts) :
    i ≤ st.start ∧ (∀ j, i ≤ j → j < st.start → hasCall d (lineAt ls j) = false) ∧
      hasCall d (lineAt ls st.start) ∧ st.last = lastLine d ls st.start ∧
      statementsFrom d 0 (st.last + 1) (ls.drop (st.last + 1)) = sts := by
  induction hn : ls.length - i using Nat.strongRecOn generalizing i with
  | ind n ih =>
    by_cases hi : i < ls.length
    · cases hc : hasCall d (lineAt ls i) with
      | true =>
        rw [walk_jump hc] at h
        cases h
        exact ⟨Nat.le_refl i, fun j h1 h2 => absurd h1 (Nat.not_le.2 h2), hc, rfl, rfl⟩
      | false =>
        rw [walk_next hc] at h
        obtain ⟨hs, hno, rest⟩ := ih (ls.length - (i + 1)) (by omega) h rfl
        refine ⟨by omega, fun j h1 h2 => ?_, rest⟩
        rcases Nat.eq_or_lt_of_le h1 with rfl | hlt
        · exact hc
        · exact hno j hlt h2
    · rw [List.drop_eq_nil_of_le (by omega)] at h
      cases h

end CallGuard
