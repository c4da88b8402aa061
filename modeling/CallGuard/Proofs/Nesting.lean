import CallGuard.Proofs.Validity
import CallGuard.Proofs.Visiting
set_option autoImplicit false

/-!
# Nesting

How the depth and the lexical state change over the characters of a line, and that a call leaves
something open.
-/
namespace CallGuard

variable {d : Dialect}

/-! ## Depths -/

theorem openDepth_append (n : Nat) (gs hs : List Glyph) :
    openDepth d n (gs ++ hs) = (openDepth d n gs).bind fun m => openDepth d m hs := by
  induction gs generalizing n with
  | nil => rfl
  | cons g gs ih =>
    rw [List.cons_append, openDepth, openDepth]
    split
    · exact ih (n + 1)
    · split
      · split
        · rfl
        · exact ih (n - 1)
      · exact ih n

theorem notDelim_of_notMem {g : Glyph} (h : g.char ∉ d.roles) :
    g.opens d = false ∧ g.closes d = false := by
  simp only [Dialect.roles, List.mem_cons, not_or] at h
  simp [Glyph.opens, Glyph.closes, Glyph.isCode, h]

theorem openDepth_of_notMem {gs : List Glyph} (h : ∀ g ∈ gs, g.char ∉ d.roles) (n : Nat) :
    openDepth d n gs = some n := by
  induction gs with
  | nil => rfl
  | cons g gs ih =>
    obtain ⟨h1, h2⟩ := notDelim_of_notMem (h g List.mem_cons_self)
    rw [openDepth, if_neg (by simp [h1]), if_neg (by simp [h2])]
    exact ih fun k hk => h k (List.mem_cons_of_mem g hk)

theorem depthAfter_append (n : Nat) (gs hs : List Glyph) :
    depthAfter d n (gs ++ hs) = depthAfter d (depthAfter d n gs) hs := by
  induction gs generalizing n with
  | nil => rfl
  | cons g gs ih =>
    rw [List.cons_append, depthAfter, depthAfter]
    simp only [ih]
    split
    · rfl
    · split <;> rfl

theorem depthAfter_of_notMem {gs : List Glyph} (h : ∀ g ∈ gs, g.char ∉ d.roles) (n : Nat) :
    depthAfter d n gs = n := by
  induction gs with
  | nil => rfl
  | cons g gs ih =>
    obtain ⟨h1, h2⟩ := notDelim_of_notMem (h g List.mem_cons_self)
    rw [depthAfter, h1, h2]
    exact ih fun k hk => h k (List.mem_cons_of_mem g hk)

theorem openDepth_pos {n m : Nat} {gs : List Glyph} (h : openDepth d n gs = some m)
    (hn : 1 ≤ n ∨ ∃ g ∈ gs, g.opens d) : 1 ≤ m := by
  induction gs generalizing n with
  | nil =>
    cases h
    simpa using hn
  | cons g gs ih =>
    rw [openDepth] at h
    split at h
    · exact ih h (Or.inl (by omega))
    · rename_i ho
      have rest : 1 ≤ n ∨ ∃ g ∈ gs, g.opens d := by simpa [ho] using hn
      split at h
      · split at h
        · cases h
        · exact ih h (rest.imp_left (by omega))
      · exact ih h rest

/-- Depth to spare does not matter. -/
theorem openDepth_add {n m : Nat} {gs : List Glyph} (hn : 1 ≤ n) (h : openDepth d n gs = some m)
    (k : Nat) : openDepth d (n + k) gs = some (m + k) := by
  induction gs generalizing n with
  | nil =>
    cases h
    rfl
  | cons g gs ih =>
    rw [openDepth] at h ⊢
    split at h
    · rename_i ho
      rw [if_pos ho, Nat.add_right_comm]
      exact ih (by omega) h
    · rename_i ho
      rw [if_neg ho]
      split at h
      · rename_i hc
        split at h
        · cases h
        · rename_i h1
          rw [if_pos hc, if_neg (by omega), show n + k - 1 = n - 1 + k by omega]
          exact ih (by omega) h
      · rename_i hc
        rw [if_neg hc]
        exact ih hn h

/-! ## The state at the end of a line -/

theorem Scan.pending_of_step_none {s : Scan} {c : Char} {rest : Text}
    (h : s.step d c rest = none) : s.pending = false := by
  rw [Scan.step] at h
  split at h
  · cases h
  · rename_i hp
    simpa using hp

theorem Scan.pending_of_step {s u : Scan} {c : Char} {rest : Text} {r : Region}
    (hc : c ≠ d.escape) (h : s.step d c rest = some (r, u)) : u.pending = false := by
  rw [Scan.step, if_neg hc] at h
  split at h
  · cases h
    rfl
  · rename_i hp
    have hp : s.pending = false := by simpa using hp
    split at h
    · cases h
      exact hp
    · split at h
      · cases h
      · cases h
        exact hp

theorem Scan.after_newline (hd : d.escape ≠ '\n') {l : Line} (hl : l.getLast? = some '\n')
    (s : Scan) : (s.after d l).pending = false := by
  induction l generalizing s with
  | nil => cases hl
  | cons c l ih =>
    rw [Scan.after]
    split
    · rename_i r u h
      cases l with
      | nil =>
        obtain rfl : c = '\n' := by simpa using hl
        exact Scan.pending_of_step (Ne.symm hd) h
      | cons b l => exact ih (by simpa using hl) u
    · rename_i h
      exact Scan.pending_of_step_none h

theorem Scan.after_ended (hd : d.escape ≠ '\n') {l : Line} (hl : Ended l) (s : Scan) :
    (s.after d l).pending = false :=
  Scan.after_newline hd hl.getLast? s

/-- A character without a lexical role leaves the quotes as they are, and no escape is pending. -/
theorem Scan.step_of_notMem {s u : Scan} {c : Char} {rest : Text} {r : Region} (hc : c ∉ d.roles)
    (h : s.step d c rest = some (r, u)) : u = ⟨s.inQuote, false⟩ := by
  obtain ⟨q, p⟩ := s
  simp only [Dialect.roles, List.mem_cons, not_or] at hc
  rw [Scan.step, if_neg hc.2.1, if_neg hc.1] at h
  split at h
  · cases h
    rfl
  · split at h
    · cases h
    · cases h
      simp_all

theorem Scan.after_of_notMem {v : Text} (hv : ∀ c ∈ v, c ∉ d.roles) (hn : v ≠ []) (s : Scan) :
    s.after d v = ⟨s.inQuote, false⟩ := by
  induction v generalizing s with
  | nil => exact absurd rfl hn
  | cons c v ih =>
    obtain ⟨hc, hv⟩ := List.forall_mem_cons.1 hv
    rw [Scan.after]
    split
    · rename_i r u hstep
      obtain rfl := Scan.step_of_notMem hc hstep
      by_cases hv' : v = []
      · rw [hv']
        rfl
      · exact ih hv hv' _
    · rename_i hstep
      rw [← Scan.pending_of_step_none hstep]

/-! ## Calls open a depth -/

theorem exists_skipBlanks (gs : List Glyph) : ∃ blanks, gs = blanks ++ skipBlanks gs ∧
    ∀ b ∈ blanks, b.isCode ' ' ∨ b.isCode '\t' := by
  induction gs with
  | nil => exact ⟨[], rfl, by simp⟩
  | cons g gs ih =>
    rw [skipBlanks]
    split
    · rename_i blank
      obtain ⟨blanks, cut, all⟩ := ih
      refine ⟨g :: blanks, by rw [List.cons_append, ← cut], ?_⟩
      exact List.forall_mem_cons.2 ⟨by simpa using blank, all⟩
    · exact ⟨[], rfl, by simp⟩

theorem mem_of_mem_skipBlanks {gs : List Glyph} {g : Glyph} (h : g ∈ skipBlanks gs) : g ∈ gs := by
  obtain ⟨blanks, cut, -⟩ := exists_skipBlanks gs
  rw [cut]
  exact List.mem_append_right blanks h

/-- At the head of a call stands a token, and a delimiter follows behind blanks. -/
theorem exists_of_isCallHead (hd : ∀ token ∈ d.callTokens, token ≠ []) {before : Option Char}
    {g : Glyph} {gs : List Glyph} (h : isCallHead d before g gs) : ∃ word blanks op rest,
      gs = word ++ (blanks ++ op :: rest) ∧ (g :: word).map Glyph.char ∈ d.callTokens ∧
      (∀ b ∈ blanks, b.isCode ' ' ∨ b.isCode '\t') ∧ op.opens d := by
  simp only [isCallHead, Bool.and_eq_true, List.any_eq_true] at h
  obtain ⟨-, token, hm, prefixed, next⟩ := h
  obtain ⟨t, spelled⟩ := List.isPrefixOf_iff_prefix.1 prefixed
  obtain ⟨word, tail, cut, rfl, -⟩ := List.map_eq_append_iff.1 spelled.symm
  rw [cut, List.length_map, List.drop_left, opensNext, Option.any_eq_true] at next
  obtain ⟨op, first, opens⟩ := next
  obtain ⟨blanks, around, blank⟩ := exists_skipBlanks tail
  obtain ⟨rest, opener⟩ := List.head?_eq_some_iff.1 first
  cases word with
  | nil => exact absurd rfl (hd [] hm)
  | cons k word =>
    obtain ⟨rfl, rfl⟩ := List.cons.inj cut
    exact ⟨word, blanks, op, rest, by rw [← opener, ← around]; rfl, hm, blank, opens⟩

theorem exists_call_cut (hd : ∀ token ∈ d.callTokens, token ≠ []) {before : Option Char}
    {k : Nat} {gs : List Glyph} (h : callFrom d before gs = some k) : ∃ head g word blanks op rest,
      gs = head ++ g :: (word ++ (blanks ++ op :: rest)) ∧ head.length = k ∧
      (g :: word).map Glyph.char ∈ d.callTokens ∧
      (∀ b ∈ blanks, b.isCode ' ' ∨ b.isCode '\t') ∧ op.opens d := by
  induction gs generalizing before k with
  | nil => cases h
  | cons g gs ih =>
    rw [callFrom] at h
    split at h
    · rename_i head
      cases h
      obtain ⟨word, blanks, op, rest, cut, facts⟩ := exists_of_isCallHead hd head
      exact ⟨[], g, word, blanks, op, rest, by rw [cut, List.nil_append], rfl, facts⟩
    · obtain ⟨j, hj, rfl⟩ := Option.map_eq_some_iff.1 h
      obtain ⟨head, k, word, blanks, op, rest, cut, len, facts⟩ := ih hj
      exact ⟨g :: head, k, word, blanks, op, rest, by rw [cut, List.cons_append],
        by rw [List.length_cons, len], facts⟩

theorem callFrom_opens (hd : ∀ token ∈ d.callTokens, token ≠ []) {before : Option Char} {k : Nat}
    {gs : List Glyph} (h : callFrom d before gs = some k) : ∃ g ∈ gs.drop (k + 1), g.opens d := by
  obtain ⟨head, g, word, blanks, op, rest, rfl, rfl, -, -, opens⟩ := exists_call_cut hd h
  refine ⟨op, ?_, opens⟩
  rw [List.append_cons, List.drop_left' (by simp)]
  simp

/-- After the line of a call, if its nesting has not closed, something is open. -/
theorem depth_after_call (hd : ∀ token ∈ d.callTokens, token ≠ []) {l : Line} {n : Nat}
    (hc : hasCall d l)
    (h : openDepth d (depthAfter d 0 ((classify d {} l).take ((callAt? d l).getD 0 + 1)))
      ((classify d {} l).drop ((callAt? d l).getD 0 + 1)) = some n) : 1 ≤ n := by
  obtain ⟨k, hk⟩ := Option.isSome_iff_exists.1 hc
  rw [hk, Option.getD_some] at h
  exact openDepth_pos h (Or.inr (callFrom_opens hd hk))

/-! ## Two dialects -/

section
variable {d' : Dialect}

theorem classify_congr (h : ∀ s c rest, Scan.step d' s c rest = Scan.step d s c rest) (s : Scan)
    (l : Line) : classify d' s l = classify d s l := by
  induction l generalizing s with
  | nil => rfl
  | cons c l ih => simp only [classify, h, ih]

theorem callFrom_congr (h : ∀ before g gs, isCallHead d' before g gs = isCallHead d before g gs)
    (before : Option Char) (gs : List Glyph) : callFrom d' before gs = callFrom d before gs := by
  induction gs generalizing before with
  | nil => rfl
  | cons g gs ih => rw [callFrom, callFrom, h, ih]

end

end CallGuard
