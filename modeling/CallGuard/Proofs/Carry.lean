import CallGuard.Proofs.Nesting
set_option autoImplicit false

/-!
# Nesting carried over lines

`carry` runs over lines as the search for the end of a statement does and keeps the state instead of
the place. The search finds no end exactly when the run gets through.
-/
namespace CallGuard

/-- The state and the depth after some lines, unless the nesting closes on one of them. -/
def carry (d : Dialect) (s : Scan) (n : Nat) : List Line → Option (Scan × Nat)
  | [] => some (s, n)
  | l :: ls =>
    match openDepth d n (classify d s l) with
    | none => none
    | some m => carry d (s.after d l) m ls

variable {d : Dialect} {s u : Scan} {n m : Nat} {l : Line} {ls as bs : List Line}

theorem carry_cons (h : openDepth d n (classify d s l) = some m) :
    carry d s n (l :: ls) = carry d (s.after d l) m ls := by
  rw [carry, h]

theorem closingFrom_cons (h : openDepth d n (classify d s l) = some m) :
    closingFrom d s n (l :: ls) = (closingFrom d (s.after d l) m ls).map (· + 1) := by
  simp only [closingFrom, h]

theorem closingFrom_of_none (h : openDepth d n (classify d s l) = none) :
    closingFrom d s n (l :: ls) = some 0 := by
  simp only [closingFrom, h]

theorem carry_append (s : Scan) (n : Nat) (as bs : List Line) :
    carry d s n (as ++ bs) = (carry d s n as).bind fun x => carry d x.1 x.2 bs := by
  induction as generalizing s n with
  | nil => rfl
  | cons a as ih =>
    rw [List.cons_append, carry, carry]
    cases openDepth d n (classify d s a) with
    | none => rfl
    | some m => exact ih _ _

theorem carry_append_of_some (h : carry d s n as = some (u, m)) :
    carry d s n (as ++ bs) = carry d u m bs := by
  rw [carry_append, h]
  rfl

theorem exists_of_carry_append (h : (carry d s n (as ++ bs)).isSome) :
    ∃ u m, carry d s n as = some (u, m) ∧ (carry d u m bs).isSome := by
  rw [carry_append] at h
  cases ha : carry d s n as with
  | none =>
    rw [ha] at h
    cases h
  | some x =>
    rw [ha] at h
    exact ⟨x.1, x.2, rfl, h⟩

theorem closingFrom_eq_none_iff : closingFrom d s n ls = none ↔ (carry d s n ls).isSome := by
  induction ls generalizing s n with
  | nil => simp [closingFrom, carry]
  | cons l ls ih =>
    rw [closingFrom, carry]
    cases openDepth d n (classify d s l) with
    | none => simp
    | some m => exact Option.map_eq_none_iff.trans ih

/-- The search ends where the run does not get through. -/
theorem closingFrom_append_cons (h : carry d s n as = some (u, m))
    (hl : openDepth d m (classify d u l) = none) :
    closingFrom d s n (as ++ l :: bs) = some as.length := by
  induction as generalizing s n with
  | nil =>
    cases h
    exact closingFrom_of_none hl
  | cons a as ih =>
    cases hk : openDepth d n (classify d s a) with
    | none =>
      rw [carry, hk] at h
      cases h
    | some k =>
      rw [carry_cons hk] at h
      rw [List.cons_append, closingFrom_cons hk, ih h]
      rfl

theorem carry_pos (hn : 1 ≤ n) (h : carry d s n ls = some (u, m)) : 1 ≤ m := by
  induction ls generalizing s n with
  | nil =>
    cases h
    exact hn
  | cons l ls ih =>
    rw [carry] at h
    split at h
    · cases h
    · rename_i k hk
      exact ih (openDepth_pos hk (Or.inl hn)) h

/-- Depth to spare does not matter. -/
theorem carry_add (hn : 1 ≤ n) (h : carry d s n ls = some (u, m)) (k : Nat) :
    carry d s (n + k) ls = some (u, m + k) := by
  induction ls generalizing s n with
  | nil =>
    cases h
    rfl
  | cons l ls ih =>
    rw [carry] at h
    split at h
    · cases h
    · rename_i j hj
      rw [carry_cons (openDepth_add hn hj k)]
      exact ih (openDepth_pos hj (Or.inl hn)) h

theorem carry_isSome_of_le (hn : 1 ≤ n) (hm : n ≤ m) (h : (carry d s n ls).isSome) :
    (carry d s m ls).isSome := by
  obtain ⟨x, hx⟩ := Option.isSome_iff_exists.1 h
  obtain ⟨k, rfl⟩ := Nat.exists_eq_add_of_le hm
  rw [carry_add hn hx k]
  rfl

theorem carry_pending (he : d.escape ≠ '\n') (hs : s.pending = false) (hl : ∀ l ∈ ls, Ended l)
    (h : carry d s n ls = some (u, m)) : u.pending = false := by
  induction ls generalizing s n with
  | nil =>
    cases h
    exact hs
  | cons l ls ih =>
    rw [carry] at h
    split at h
    · cases h
    · exact ih (Scan.after_ended he (hl l List.mem_cons_self) s)
        (fun k hk => hl k (List.mem_cons_of_mem l hk)) h

theorem Scan.eq_of (hs : s.pending = false) (hu : u.pending = false) (h : u.inQuote = s.inQuote) :
    u = s := by
  cases s
  cases u
  simp_all

/-! ## From the line of a call -/

/-- The depth at the end of the line of a call, unless the nesting closes on it. -/
def callDepth? (d : Dialect) (l : Line) : Option Nat :=
  let head := (callAt? d l).getD 0 + 1
  openDepth d (depthAfter d 0 ((classify d {} l).take head)) ((classify d {} l).drop head)

theorem closing?_of_none (h : callDepth? d l = none) : closing? d (l :: ls) = some 0 := by
  unfold callDepth? at h
  simp only [closing?, h]

theorem closing?_of_some (h : callDepth? d l = some n) :
    closing? d (l :: ls) = (closingFrom d (Scan.after d {} l) n ls).map (· + 1) := by
  unfold callDepth? at h
  simp only [closing?, h]

theorem callDepth?_pos (hd : ∀ token ∈ d.callTokens, token ≠ []) (hc : hasCall d l)
    (h : callDepth? d l = some n) : 1 ≤ n :=
  depth_after_call hd hc h

/-- A statement never closes when the run from its line on gets through. -/
theorem closing?_eq_none_iff (h : callDepth? d l = some n) :
    closing? d (l :: ls) = none ↔ (carry d (Scan.after d {} l) n ls).isSome := by
  rw [closing?_of_some h]
  exact Option.map_eq_none_iff.trans closingFrom_eq_none_iff

theorem exists_callDepth (h : closing? d (l :: ls) = none) : ∃ n, callDepth? d l = some n := by
  cases hn : callDepth? d l with
  | none =>
    rw [closing?_of_none hn] at h
    cases h
  | some n => exact ⟨n, rfl⟩

end CallGuard
