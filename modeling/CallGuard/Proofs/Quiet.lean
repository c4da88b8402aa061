import CallGuard.Proofs.Carry
set_option autoImplicit false

/-!
# Quiet lines

A quiet line holds no call, closes nothing that was opened above it and leaves the quotes as they
are. Quiet lines put between statements change neither where statements begin nor where they end.
-/
namespace CallGuard

structure Quiet (d : Dialect) (l : Line) : Prop where
  noCall : hasCall d l = false
  holds : ∀ (q : Bool) (n : Nat), 1 ≤ n →
    ∃ m, n ≤ m ∧ openDepth d n (classify d ⟨q, false⟩ l) = some m
  quotes : ∀ q : Bool, (Scan.after d ⟨q, false⟩ l).inQuote = q

variable {d : Dialect}

/-- What closes within the first lines does not depend on the lines below. -/
theorem closingFrom_append_of_lt {s : Scan} {n k : Nat} {as bs cs : List Line}
    (h : closingFrom d s n (as ++ bs) = some k) (hk : k < as.length) :
    closingFrom d s n (as ++ cs) = some k := by
  induction as generalizing s n k with
  | nil => simp at hk
  | cons a as ih =>
    rw [List.cons_append, closingFrom] at h ⊢
    split at h
    · exact h
    · obtain ⟨j, hj, rfl⟩ := Option.map_eq_some_iff.1 h
      exact Option.map_eq_some_iff.2 ⟨j, ih hj (by simpa using hk), rfl⟩

theorem closing?_append_of_le {k : Nat} {a : Line} {as bs cs : List Line}
    (h : closing? d (a :: (as ++ bs)) = some k) (hk : k ≤ as.length) :
    closing? d (a :: (as ++ cs)) = some k := by
  cases hn : callDepth? d a with
  | none =>
    rw [closing?_of_none hn] at h ⊢
    exact h
  | some n =>
    rw [closing?_of_some hn] at h ⊢
    obtain ⟨j, hj, rfl⟩ := Option.map_eq_some_iff.1 h
    exact Option.map_eq_some_iff.2 ⟨j, closingFrom_append_of_lt hj (by omega), rfl⟩

/-- A run that gets through some lines gets through them with quiet lines above. -/
theorem carry_quiet_append (he : d.escape ≠ '\n') {s : Scan} {n : Nat} {ps bs : List Line}
    (hs : s.pending = false) (hp : ∀ l ∈ ps, Quiet d l) (hl : Lined (ps ++ bs)) (hn : 1 ≤ n)
    (h : (carry d s n bs).isSome) : (carry d s n (ps ++ bs)).isSome := by
  induction ps generalizing s n with
  | nil => exact h
  | cons l ps ih =>
    have quiet := hp l List.mem_cons_self
    obtain ⟨q, p⟩ := s
    obtain rfl : p = false := hs
    obtain ⟨m, hm, hd⟩ := quiet.holds q n hn
    rw [List.cons_append, carry_cons hd]
    cases hr : ps ++ bs with
    | nil => rfl
    | cons k ks =>
      -- a line follows, so this one ends in its line feed and nothing is pending
      have hlk : Lined ([l] ++ k :: ks) := by
        rw [← hr]
        exact hl
      have ended : Ended l := hlk.ended l List.mem_cons_self
      have after : Scan.after d ⟨q, false⟩ l = ⟨q, false⟩ :=
        Scan.eq_of rfl (Scan.after_ended he ended _) (quiet.quotes q)
      rw [← hr, after]
      exact ih rfl (fun x hx => hp x (List.mem_cons_of_mem l hx)) hl.tail (by omega)
        (carry_isSome_of_le hn hm h)

/-- A statement that never closes does not close on quiet lines put below its first line. -/
theorem closing?_insert (he : d.escape ≠ '\n') (hd : ∀ token ∈ d.callTokens, token ≠ []) {a : Line}
    {as ps bs : List Line} (hc : hasCall d a) (ha : ∀ l ∈ a :: as, Ended l)
    (hp : ∀ l ∈ ps, Quiet d l) (hl : Lined (ps ++ bs)) (h : closing? d (a :: (as ++ bs)) = none) :
    closing? d (a :: (as ++ (ps ++ bs))) = none := by
  obtain ⟨n, hn⟩ := exists_callDepth h
  obtain ⟨first, rest⟩ := List.forall_mem_cons.1 ha
  obtain ⟨u, m, above, below⟩ := exists_of_carry_append ((closing?_eq_none_iff hn).1 h)
  have pos := callDepth?_pos hd hc hn
  have pending := carry_pending he (Scan.after_ended he first {}) rest above
  rw [closing?_eq_none_iff hn, carry_append_of_some above]
  exact carry_quiet_append he pending hp hl (carry_pos pos above) below

end CallGuard
