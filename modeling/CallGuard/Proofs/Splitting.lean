import CallGuard.Insertion
set_option autoImplicit false

/-!
# Lists of lines

A list of lines is what splitting a text gives when each line ends in its only line feed; the last
line may have none, and then it is not empty. On such lists splitting undoes joining.
-/
namespace CallGuard

/-- The line ends in a line feed and has no other. -/
def Ended (l : Line) : Prop := ∃ b : Text, '\n' ∉ b ∧ l = b ++ ['\n']

inductive Lined : List Line → Prop where
  | nil : Lined []
  | unended {b : Line} (hb : b ≠ []) (hn : '\n' ∉ b) : Lined [b]
  | cons {l : Line} {ls : List Line} (hl : Ended l) (tail : Lined ls) : Lined (l :: ls)

theorem Ended.getLast? {l : Line} (h : Ended l) : l.getLast? = some '\n' := by
  obtain ⟨b, -, rfl⟩ := h
  exact List.getLast?_concat

theorem splitLines_ended_append {l : Line} (h : Ended l) (t : Text) :
    splitLines (l ++ t) = l :: splitLines t := by
  obtain ⟨b, hb, rfl⟩ := h
  induction b with
  | nil => simp [splitLines]
  | cons c b ih =>
    have hc : c ≠ '\n' := fun e => hb (by simp [e])
    have tail := ih (fun hm => hb (List.mem_cons_of_mem c hm))
    rw [List.cons_append, List.cons_append, splitLines, if_neg hc, tail]

theorem splitLines_unended {b : Text} (hb : b ≠ []) (hn : '\n' ∉ b) : splitLines b = [b] := by
  induction b with
  | nil => exact absurd rfl hb
  | cons c b ih =>
    have hc : c ≠ '\n' := fun e => hn (by simp [e])
    rw [splitLines, if_neg hc]
    cases b with
    | nil => rfl
    | cons e b => rw [ih (by simp) (fun hm => hn (List.mem_cons_of_mem c hm))]

theorem lined_splitLines (t : Text) : Lined (splitLines t) := by
  induction t with
  | nil => exact .nil
  | cons c t ih =>
    by_cases hc : c = '\n'
    · subst c
      exact .cons ⟨[], by simp, rfl⟩ (by simpa using ih)
    · rw [splitLines, if_neg hc]
      generalize splitLines t = ls at ih
      cases ih with
      | nil => exact .unended (by simp) (by simpa using fun e => hc e.symm)
      | unended hb hn => exact .unended (by simp) (by simpa [hn] using fun e => hc e.symm)
      | cons hl tail =>
        obtain ⟨b, hb, rfl⟩ := hl
        exact .cons ⟨c :: b, by simpa [hb] using fun e => hc e.symm, rfl⟩ tail

theorem splitLines_joinLines {ls : List Line} (h : Lined ls) : splitLines (joinLines ls) = ls := by
  induction h with
  | nil => rfl
  | unended hb hn => simpa [joinLines] using splitLines_unended hb hn
  | cons hl _ ih =>
    change splitLines (_ ++ joinLines _) = _
    rw [splitLines_ended_append hl, ih]

theorem splitLines_joinLines_append {ls : List Line} (h : ∀ l ∈ ls, Ended l) (t : Text) :
    splitLines (joinLines ls ++ t) = ls ++ splitLines t := by
  induction ls with
  | nil => rfl
  | cons l ls ih =>
    obtain ⟨first, rest⟩ := List.forall_mem_cons.1 h
    change splitLines (l ++ joinLines ls ++ t) = _
    rw [List.append_assoc, splitLines_ended_append first, ih rest, List.cons_append]

theorem joinLines_append (ls ms : List Line) :
    joinLines (ls ++ ms) = joinLines ls ++ joinLines ms :=
  List.flatten_append

theorem Lined.tail {l : Line} {ls : List Line} (h : Lined (l :: ls)) : Lined ls := by
  cases h with
  | unended => exact .nil
  | cons _ tail => exact tail

theorem Lined.append {ls ms : List Line} (hl : ∀ l ∈ ls, Ended l) (hm : Lined ms) :
    Lined (ls ++ ms) := by
  induction ls with
  | nil => exact hm
  | cons l ls ih =>
    exact .cons (hl l (by simp)) (ih fun m h => hl m (List.mem_cons_of_mem l h))

theorem Lined.right {ls ms : List Line} (h : Lined (ls ++ ms)) : Lined ms := by
  induction ls with
  | nil => exact h
  | cons l ls ih => exact ih h.tail

/-- Only the last line can lack its line feed. -/
theorem Lined.ended {ls : List Line} {m : Line} {ms : List Line} (h : Lined (ls ++ m :: ms)) :
    ∀ l ∈ ls, Ended l := by
  induction ls with
  | nil => simp
  | cons l ls ih =>
    have first : Ended l := by
      cases ls <;> exact (by cases h with | cons hl _ => exact hl)
    intro k hk
    rcases List.mem_cons.1 hk with rfl | hk
    · exact first
    · exact ih h.tail k hk

theorem terminator_eq_nil_iff {l : Line} : terminator l = [] ↔ l.getLast? ≠ some '\n' := by
  rw [terminator, List.getLast?_eq_head?_reverse]
  generalize l.reverse = r
  split
  · simp
  · simp
  · rename_i hn
    apply iff_of_true rfl
    intro h
    obtain ⟨rest, rfl⟩ := List.head?_eq_some_iff.1 h
    exact hn rest rfl

theorem Ended.terminator_ne_nil {l : Line} (h : Ended l) : terminator l ≠ [] :=
  fun hn => terminator_eq_nil_iff.1 hn h.getLast?

theorem lineBreak_cases (l : Line) : lineBreak l = ['\n'] ∨ lineBreak l = ['\r', '\n'] := by
  unfold lineBreak terminator
  split <;> simp

theorem isBlank_of_mem_lineBreak {l : Line} {c : Char} (h : c ∈ lineBreak l) : isBlank c := by
  rcases lineBreak_cases l with e | e <;> rw [e] at h
  · obtain rfl := List.mem_singleton.1 h
    decide
  · rcases List.mem_cons.1 h with rfl | h
    · decide
    · obtain rfl := List.mem_singleton.1 h
      decide

theorem ended_append_lineBreak {t : Text} (ht : '\n' ∉ t) (l : Line) : Ended (t ++ lineBreak l) := by
  rcases lineBreak_cases l with e | e
  · exact ⟨t, ht, by rw [e]⟩
  · exact ⟨t ++ ['\r'], by simp [ht], by simp [e]⟩

theorem Lined.drop {ls : List Line} (h : Lined ls) (i : Nat) : Lined (ls.drop i) :=
  Lined.right ((List.take_append_drop i ls).symm ▸ h : Lined (ls.take i ++ ls.drop i))

theorem Lined.take_ended {ls : List Line} {i : Nat} (h : Lined ls) (hi : i < ls.length) :
    ∀ l ∈ ls.take i, Ended l := by
  have split := List.take_append_drop i ls
  rw [List.drop_eq_getElem_cons hi] at split
  exact (split.symm ▸ h : Lined (ls.take i ++ ls[i] :: ls.drop (i + 1))).ended

theorem Lined.mem {ls : List Line} {l : Line} (h : Lined ls) (hl : l ∈ ls) :
    Ended l ∨ '\n' ∉ l := by
  induction h with
  | nil => cases hl
  | unended hb hn => exact Or.inr (List.mem_singleton.1 hl ▸ hn)
  | cons hm _ ih =>
    rcases List.mem_cons.1 hl with rfl | hl
    · exact Or.inl hm
    · exact ih hl

theorem Lined.ne_nil {l : Line} {ls : List Line} (h : Lined ls) (hl : l ∈ ls) : l ≠ [] := by
  induction h with
  | nil => cases hl
  | unended hb => exact List.mem_singleton.1 hl ▸ hb
  | cons hm _ ih =>
    rcases List.mem_cons.1 hl with rfl | hl
    · obtain ⟨b, -, rfl⟩ := hm
      exact List.concat_ne_nil _ _
    · exact ih hl

theorem Lined.notMem_dropLast {l : Line} {ls : List Line} (h : Lined ls) (hl : l ∈ ls) :
    '\n' ∉ l.dropLast := by
  rcases h.mem hl with ⟨b, hb, rfl⟩ | hn
  · rwa [List.dropLast_concat]
  · exact fun inner => hn (List.dropLast_subset l inner)

theorem Lined.forall_ended_iff {ls : List Line} (h : Lined ls) :
    (∀ l ∈ ls, Ended l) ↔ joinLines ls = [] ∨ (joinLines ls).getLast? = some '\n' := by
  induction h with
  | nil => simp [joinLines]
  | @unended b hb hn =>
    have join : joinLines [b] = b := by simp [joinLines]
    have last : b.getLast? ≠ some '\n' := fun e => hn (List.mem_of_getLast? e)
    rw [List.forall_mem_singleton, join]
    constructor
    · intro ended
      exact absurd ended.getLast? last
    · intro whole
      exact absurd whole (not_or.2 ⟨hb, last⟩)
  | @cons l ls hl _ ih =>
    have join : joinLines (l :: ls) = l ++ joinLines ls := rfl
    rw [List.forall_mem_cons, and_iff_right hl, ih, join, List.getLast?_append, hl.getLast?]
    cases hs : (joinLines ls).getLast? with
    | none => simp [List.getLast?_eq_none_iff.1 hs]
    | some c =>
      have filled : joinLines ls ≠ [] := by
        intro e
        rw [e] at hs
        cases hs
      simp [filled]

theorem forall_ended_splitLines {t : Text} :
    (∀ l ∈ splitLines t, Ended l) ↔ t = [] ∨ t.getLast? = some '\n' := by
  rw [(lined_splitLines t).forall_ended_iff, joinLines_splitLines]

theorem splitLines_ended {t : Text} (h : t.getLast? = some '\n') : ∀ l ∈ splitLines t, Ended l :=
  forall_ended_splitLines.2 (.inr h)

theorem splitLines_append {t : Text} (h : t = [] ∨ t.getLast? = some '\n') (u : Text) :
    splitLines (t ++ u) = splitLines t ++ splitLines u := by
  have joined := splitLines_joinLines_append (forall_ended_splitLines.2 h) u
  rwa [joinLines_splitLines] at joined

end CallGuard
