import CallGuard.Proofs.Carry
set_option autoImplicit false

/-!
# Inert lines

A line without lexical characters, put in below a line feed, is met with no escape pending and leaves
the quotes and the nesting as it finds them. So the search for the end of a statement passes over it,
whatever is open there, and a statement ends on the line it ended on before, one further down if that
line lies below.
-/
namespace CallGuard

/-- Where line `i` goes when a line is put in as line `p`. -/
def pushed (p i : Nat) : Nat := if i < p then i else i + 1

theorem pushed_zero (i : Nat) : pushed 0 i = i + 1 := if_neg (Nat.not_lt_zero i)

theorem pushed_succ (p i : Nat) : pushed (p + 1) (i + 1) = pushed p i + 1 := by
  unfold pushed
  split_ifs <;> omega

theorem pushed_add (s p i : Nat) : pushed (s + p) (s + i) = s + pushed p i := by
  unfold pushed
  split_ifs <;> omega

theorem drop_insertIdx {s p : Nat} (h : s < p) (ls : List Line) (x : Line) :
    (ls.insertIdx p x).drop s = (ls.drop s).insertIdx (p - s) x := by
  induction s generalizing p ls with
  | zero => rfl
  | succ s ih =>
    obtain ⟨p, rfl⟩ := Nat.exists_eq_add_of_lt h
    cases ls with
    | nil =>
      rw [show s + 1 + p + 1 - (s + 1) = p + 1 by omega, List.drop_nil, List.insertIdx_succ_nil,
        List.insertIdx_succ_nil, List.drop_nil]
    | cons l ls =>
      rw [List.insertIdx_succ_cons, List.drop_succ_cons, List.drop_succ_cons, ih (by omega),
        Nat.add_sub_add_right]

variable {d : Dialect} {ls : List Line} {l x : Line}

section
variable (hx : x ≠ []) (inert : ∀ c ∈ x, c ∉ d.roles)
include hx inert

/-- The search passes over an inert line in any state without a pending escape. -/
theorem closingFrom_inert {s : Scan} (hs : s.pending = false) (n : Nat) (ls : List Line) :
    closingFrom d s n (x :: ls) = (closingFrom d s n ls).map (· + 1) := by
  have depth : openDepth d n (classify d s x) = some n := openDepth_of_notMem (fun g hg =>
    inert g.char (map_char_classify d s x ▸ List.mem_map_of_mem hg)) n
  have state : s.after d x = s := by
    rw [Scan.after_of_notMem inert hx, ← hs]
  rw [closingFrom_cons depth, state]

variable (hd : d.escape ≠ '\n')
include hd

/-- The line `l` above is the one that tells that no escape is pending where the search begins. -/
theorem closingFrom_insertIdx (s : Scan) (n : Nat) {p : Nat}
    (hp : (lineAt (l :: ls) p).getLast? = some '\n') :
    closingFrom d (s.after d l) n (ls.insertIdx p x) =
      (closingFrom d (s.after d l) n ls).map (pushed p) := by
  induction p generalizing l ls s n with
  | zero =>
    have ready : (s.after d l).pending = false := Scan.after_newline hd hp s
    rw [List.insertIdx_zero, closingFrom_inert hx inert ready]
    exact congrArg (Option.map · _) (funext fun i => (pushed_zero i).symm)
  | succ p ih =>
    cases ls with
    | nil => cases hp
    | cons m ls =>
      rw [List.insertIdx_succ_cons]
      cases hn : openDepth d n (classify d (s.after d l) m) with
      | none =>
        rw [closingFrom_of_none hn, closingFrom_of_none hn]
        rfl
      | some k =>
        rw [closingFrom_cons hn, closingFrom_cons hn, ih (s.after d l) k hp, Option.map_map,
          Option.map_map]
        exact congrArg (Option.map · _) (funext fun i => (pushed_succ p i).symm)

theorem closing?_insertIdx {p : Nat} (hp : (lineAt ls p).getLast? = some '\n') :
    closing? d (ls.insertIdx (p + 1) x) = (closing? d ls).map (pushed (p + 1)) := by
  cases ls with
  | nil => cases hp
  | cons l ls =>
    rw [List.insertIdx_succ_cons]
    cases hn : callDepth? d l with
    | none =>
      rw [closing?_of_none hn, closing?_of_none hn]
      rfl
    | some n =>
      rw [closing?_of_some hn, closing?_of_some hn, closingFrom_insertIdx hx inert hd {} n hp,
        Option.map_map, Option.map_map]
      exact congrArg (Option.map · _) (funext fun i => (pushed_succ p i).symm)

end

/-- An inert line put in below a line feed moves the end of a statement down by one line if the
statement ends below, and otherwise leaves it; a statement that never closes does not close. -/
theorem closingLine?_insertIdx (hd : d.escape ≠ '\n') {s p : Nat} (hs : s < p)
    (hp : (lineAt ls (p - 1)).getLast? = some '\n') (hx : x ≠ []) (inert : ∀ c ∈ x, c ∉ d.roles) :
    closingLine? d (ls.insertIdx p x) s =
      (closingLine? d ls s).map fun e => if e < p then e else e + 1 := by
  obtain ⟨p, rfl⟩ := Nat.exists_eq_add_of_lt hs
  have above : (lineAt (ls.drop s) p).getLast? = some '\n' := by
    rwa [lineAt_drop]
  rw [closingLine?, drop_insertIdx hs, closingLine?, show s + p + 1 - s = p + 1 by omega,
    closing?_insertIdx hx inert hd above, Option.map_map, Option.map_map]
  exact congrArg (Option.map · _) (funext fun i => (pushed_add s (p + 1) i).symm)

/-- Its first line ends within a string, behind an escape, and its second line in a comment. -/
def foldedCallLines : List Line := splitLines "print(\"a\\\nb\", // c(\nd)\ne\n".toList

theorem closingLine?_insertIdx_foldedCallLines :
    let x : Line := "#else // f\n".toList
    let end? := fun p => closingLine? .swift (foldedCallLines.insertIdx p x) 0
    (lineAt foldedCallLines 0).getLast? = some '\n' ∧ (∀ c ∈ x, c ∉ Dialect.swift.roles) ∧
      closingLine? .swift foldedCallLines 0 = some 2 ∧ end? 1 = some 3 ∧ end? 3 = some 2 := by
  intro x end?
  have plain : x.all (fun c => !Dialect.swift.roles.contains c) := by decide +kernel
  have inert : ∀ c ∈ x, c ∉ Dialect.swift.roles := fun c hc => by
    simpa using List.all_eq_true.1 plain c hc
  have closed : closingLine? .swift foldedCallLines 0 = some 2 := by decide +kernel
  have moved : end? 1 = some 3 := by
    refine (closingLine?_insertIdx (by decide) (by decide) (by decide +kernel) (by decide) inert).trans ?_
    rw [closed]
    rfl
  have kept : end? 3 = some 2 := by
    refine (closingLine?_insertIdx (by decide) (by decide) (by decide +kernel) (by decide) inert).trans ?_
    rw [closed]
    rfl
  exact ⟨by decide +kernel, inert, closed, moved, kept⟩

end CallGuard
