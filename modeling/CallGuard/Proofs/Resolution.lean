import CallGuard.Proofs.Contents
import CallGuard.Proofs.Marking
set_option autoImplicit false

/-!
# Resolution of paths

Where a path leads does not depend on the contents of the files. A path that a chain of names
extends leads to what the chain leads to, from where the path leads.
-/
namespace CallGuard

/-! ## The steps of a path -/

namespace Path

variable {p : Path} {n : Name}

theorem steps_append_slash (p q : Path) : steps (p ++ Bytes.slash :: q) = steps p ++ steps q := by
  rw [steps, stretches_append_cons (p := fun b => b == Bytes.slash) rfl, List.map_append]
  rfl

theorem steps_of_isProper (hn : n.isProper) : steps n = [.down n] := by
  simp only [Name.isProper, Bool.and_eq_true, bne_iff_ne, Bool.not_eq_true',
    List.contains_eq_mem, decide_eq_false_iff_not] at hn
  obtain ⟨⟨⟨notEmpty, notDot⟩, notDots⟩, noSlash⟩ := hn
  have whole : stretches (· == Bytes.slash) n = [n] :=
    stretches_of_none fun b hb hs => noSlash ((beq_iff_eq.1 hs) ▸ hb)
  rw [steps, whole, List.map_singleton, Step.ofComponent, if_neg (not_or.2 ⟨notEmpty, notDot⟩),
    if_neg notDots]

/-- The slash that joins may be there already. -/
theorem exists_join_eq (hp : p ≠ []) (n : Name) :
    ∃ u, (p = u ∧ u ≠ [] ∨ p = u ++ [Bytes.slash]) ∧ p.join n = u ++ Bytes.slash :: n := by
  by_cases slash : p.getLast? = some Bytes.slash
  · obtain ⟨u, rfl⟩ := List.getLast?_eq_some_iff.1 slash
    refine ⟨u, Or.inr rfl, ?_⟩
    rw [join, if_pos (Or.inr slash), List.append_assoc, List.singleton_append]
  · exact ⟨p, Or.inl ⟨rfl, hp⟩, if_neg (not_or.2 ⟨hp, slash⟩)⟩

/-- A slash at the end asks for nothing more. -/
theorem exists_steps_join (hp : p ≠ []) (hn : n.isProper) :
    ∃ ss, (steps p = ss ∨ steps p = ss ++ [.stay]) ∧ steps (join p n) = ss ++ [.down n] := by
  obtain ⟨u, before, after⟩ := exists_join_eq hp n
  refine ⟨steps u, ?_, by rw [after, steps_append_slash, steps_of_isProper hn]⟩
  rcases before with ⟨rfl, -⟩ | rfl
  · exact Or.inl rfl
  · exact Or.inr (steps_append_slash u [])

theorem join_ne_nil (hn : n.isProper) : join p n ≠ [] := by
  have named : n ≠ [] := by
    rintro rfl
    exact absurd hn (by decide)
  unfold join
  split <;> simp [named]

end Path

namespace Folder

variable {top inner : Folder} {f : List Name → ByteArray → ByteArray} {p root : Path} {n : Name}
  {here there goal base chain : List Name} {ss ts : List Step} {links : Nat} {e : Entry} {s : Step}
  {onLink : List Name → List Step → Except Refusal (List Name)}

theorem directory?_eq_some : top.directory? p = some inner ↔
    ∃ base, top.locate p = .ok base ∧ top.at? base = some (.dir inner) := by
  unfold directory?
  cases top.locate p with
  | error why => simp
  | ok loc =>
    cases ha : top.at? loc with
    | none => simp [ha]
    | some e => cases e <;> simp [ha]

def LeadsToFile (top : Folder) (p : Path) (loc : List Name) : Prop :=
  top.locate p = .ok loc ∧ ∃ c, top.at? loc = some (.file c)

/-! ## Contents do not matter -/

theorem walk_refill (f : List Name → ByteArray → ByteArray) (top : Folder)
    (onLink : List Name → List Step → Except Refusal (List Name)) (here : List Name)
    (ss : List Step) : (top.refill f).walk onLink here ss = top.walk onLink here ss := by
  induction ss generalizing here with
  | nil => rfl
  | cons s ss ih =>
    rw [walk, walk, at?_refill]
    cases top.at? here with
    | none => rfl
    | some e =>
      cases e with
      | file c => rfl
      | link t => rfl
      | dir inner =>
        cases s with
        | stay => exact ih here
        | up => exact ih here.dropLast
        | down n =>
          dsimp only [Option.map_some, Entry.refill]
          rw [find?_refill]
          cases inner.find? n with
          | none => rfl
          | some e =>
            cases e with
            | link t => rfl
            | file c => exact ih (here ++ [n])
            | dir inner' => exact ih (here ++ [n])

theorem follow_refill (f : List Name → ByteArray → ByteArray) (top : Folder) (links : Nat) :
    (top.refill f).follow links = top.follow links := by
  induction links with
  | zero =>
    funext here ss
    exact walk_refill f top _ here ss
  | succ links ih =>
    funext here ss
    rw [follow, follow, walk_refill, ih]

theorem locate_refill (f : List Name → ByteArray → ByteArray) (top : Folder) (p : Path) :
    (top.refill f).locate p = top.locate p := by
  rw [locate, locate, follow_refill]

theorem directory?_refill (f : List Name → ByteArray → ByteArray) (top : Folder) (p : Path) :
    ((top.refill f).directory? p).isSome = (top.directory? p).isSome := by
  unfold directory?
  rw [locate_refill]
  cases top.locate p with
  | error why => rfl
  | ok loc =>
    dsimp only
    rw [at?_refill]
    cases top.at? loc with
    | none => rfl
    | some e => cases e <;> rfl

theorem leadsToFile_refill {loc : List Name} (h : top.LeadsToFile p loc) :
    (top.refill f).LeadsToFile p loc := by
  obtain ⟨hp, c, hc⟩ := h
  exact ⟨by rw [locate_refill, hp], f loc c, at?_refill_file hc f⟩

/-! ## One part of a path after the other -/

/-- A step leads to a place or hands over at a link, whatever comes after it. -/
theorem walk_cons_cases (h : top.walk onLink here (s :: ss) = .ok goal) :
    (∃ next, top.walk onLink next ss = .ok goal ∧
      ∀ ss', top.walk onLink here (s :: ss') = top.walk onLink next ss') ∨
    ∃ next target, onLink next (target ++ ss) = .ok goal ∧
      ∀ ss', top.walk onLink here (s :: ss') = onLink next (target ++ ss') := by
  rw [walk] at h
  simp only [walk]
  cases ha : top.at? here with
  | none =>
    rw [ha] at h
    cases h
  | some e =>
    rw [ha] at h
    cases e with
    | file c => cases h
    | link t => cases h
    | dir inner =>
      cases s with
      | stay => exact Or.inl ⟨_, h, fun _ => rfl⟩
      | up => exact Or.inl ⟨_, h, fun _ => rfl⟩
      | down n =>
        dsimp only at h ⊢
        cases hf : inner.find? n with
        | none =>
          rw [hf] at h
          cases h
        | some e =>
          rw [hf] at h
          cases e with
          | file c => exact Or.inl ⟨_, h, fun _ => rfl⟩
          | dir inner' => exact Or.inl ⟨_, h, fun _ => rfl⟩
          | link target =>
            dsimp only at h ⊢
            split at h
            · cases h
            · rename_i named
              exact Or.inr ⟨_, _, h, fun _ => if_neg named⟩

/-- A link on the way may lead on to more steps, so the steps that follow are carried along. -/
theorem walk_append
    (hl : ∀ here ss, onLink here ss = .ok there → onLink here (ss ++ ts) = .ok goal)
    (ht : top.walk onLink there ts = .ok goal) (h : top.walk onLink here ss = .ok there) :
    top.walk onLink here (ss ++ ts) = .ok goal := by
  induction ss generalizing here with
  | nil =>
    cases h
    exact ht
  | cons s ss ih =>
    rcases walk_cons_cases h with ⟨next, h, same⟩ | ⟨next, target, h, same⟩
    · rw [List.cons_append, same]
      exact ih h
    · rw [List.cons_append, same, ← List.append_assoc]
      exact hl next (target ++ ss) h

/-- The second part must lead on whatever number of links the first part leaves. -/
theorem follow_append (ht : ∀ k, top.follow k there ts = .ok goal)
    (h : top.follow links here ss = .ok there) : top.follow links here (ss ++ ts) = .ok goal := by
  induction links generalizing here ss with
  | zero => exact walk_append (fun _ _ h => by cases h) (ht 0) h
  | succ links ih => exact walk_append (fun _ _ => ih) (ht (links + 1)) h

theorem walk_of_append_stay
    (hl : ∀ here ss, onLink here (ss ++ [.stay]) = .ok there → onLink here ss = .ok there)
    (h : top.walk onLink here (ss ++ [.stay]) = .ok there) : top.walk onLink here ss = .ok there := by
  induction ss generalizing here with
  | nil =>
    rw [List.nil_append, walk] at h
    split at h
    · exact h
    · cases h
  | cons s ss ih =>
    rw [List.cons_append] at h
    rcases walk_cons_cases h with ⟨next, h, same⟩ | ⟨next, target, h, same⟩
    · rw [same]
      exact ih h
    · rw [same]
      rw [← List.append_assoc] at h
      exact hl next (target ++ ss) h

theorem follow_of_append_stay (h : top.follow links here (ss ++ [.stay]) = .ok there) :
    top.follow links here ss = .ok there := by
  induction links generalizing here ss with
  | zero => exact walk_of_append_stay (fun _ _ h => by cases h) h
  | succ links ih => exact walk_of_append_stay (fun _ _ => ih) h

/-! ## Below a directory -/

theorem follow_down (ht : top.at? there = some (.dir inner)) (hf : inner.find? n = some e)
    (he : ∀ t, e ≠ .link t) (k : Nat) : top.follow k there [.down n] = .ok (there ++ [n]) := by
  have down (onLink) : top.walk onLink there [.down n] = .ok (there ++ [n]) := by
    rw [walk, ht]
    dsimp only
    rw [hf]
    cases e with
    | link t => exact absurd rfl (he t)
    | file c => rfl
    | dir inner' => rfl
  cases k with
  | zero => exact down _
  | succ k => exact down _

theorem ne_nil_of_locate (h : top.locate p = .ok there) : p ≠ [] := by
  rintro rfl
  cases h

theorem locate_join (hn : n.isProper) (hp : top.locate p = .ok there)
    (ht : top.at? there = some (.dir inner)) (hf : inner.find? n = some e)
    (he : ∀ t, e ≠ .link t) : top.locate (p.join n) = .ok (there ++ [n]) := by
  have named := ne_nil_of_locate hp
  obtain ⟨ss, before, after⟩ := Path.exists_steps_join named hn
  rw [locate, if_neg named] at hp
  rw [locate, if_neg (Path.join_ne_nil hn), after]
  refine follow_append (follow_down ht hf he) ?_
  rcases before with before | before
  · rw [← before]
    exact hp
  · rw [before] at hp
    exact follow_of_append_stay hp

theorem locate_below (hw : inner.isProper) (hp : top.locate root = .ok base)
    (hb : top.at? base = some (.dir inner)) (hc : inner.at? chain = some e)
    (he : ∀ t, e ≠ .link t) : top.locate (root.below chain) = .ok (base ++ chain) := by
  induction chain generalizing root base inner with
  | nil =>
    rw [List.append_nil]
    exact hp
  | cons n ns ih =>
    rcases exists_of_at?_cons hc with ⟨rfl, hf⟩ | ⟨inner', hf, hc⟩
    · exact locate_join (isProper_of_find? hw hf).1 hp hb hf he
    · obtain ⟨hn, hw'⟩ := isProper_of_find? hw hf
      have step := locate_join hn hp hb hf fun t h => by cases h
      have below : top.at? (base ++ [n]) = some (.dir inner') := by
        rw [at?_append hb, at?_singleton hf]
      have rest := ih hw' step below hc
      rw [List.append_assoc] at rest
      exact rest

end Folder

end CallGuard
