import CallGuard.Proofs.Splitting
import Mathlib.Data.List.Basic
set_option autoImplicit false

/-!
# A text and its lines

Splitting and joining are inverse to each other between the texts and the lists of lines delimited
by line feeds, so a text has no other list of lines. A text that is empty or ends in a line feed,
and no other, keeps its lines apart from those of whatever is put below it.
-/
namespace CallGuard

/-- What can be seen of the lines of a text, line by line. -/
structure Delimited (ls : List Line) : Prop where
  ne_nil : ∀ l ∈ ls, l ≠ []
  only_last : ∀ l ∈ ls, '\n' ∉ l.dropLast
  ended : ∀ l ∈ ls.dropLast, l.getLast? = some '\n'

instance (ls : List Line) : Decidable (Delimited ls) :=
  decidable_of_iff ((∀ l ∈ ls, l ≠ []) ∧ (∀ l ∈ ls, '\n' ∉ l.dropLast) ∧
      ∀ l ∈ ls.dropLast, l.getLast? = some '\n')
    ⟨fun ⟨filled, only, last⟩ => ⟨filled, only, last⟩, fun h => ⟨h.ne_nil, h.only_last, h.ended⟩⟩

variable {l : Line} {ls : List Line} {t : Text}

theorem ended_iff : Ended l ↔ '\n' ∉ l.dropLast ∧ l.getLast? = some '\n' := by
  constructor
  · rintro ⟨b, hb, rfl⟩
    rw [List.dropLast_concat]
    exact ⟨hb, List.getLast?_concat⟩
  · rintro ⟨only, last⟩
    obtain ⟨b, rfl⟩ := List.getLast?_eq_some_iff.1 last
    rw [List.dropLast_concat] at only
    exact ⟨b, only, rfl⟩

theorem lined_singleton (filled : l ≠ []) (only : '\n' ∉ l.dropLast) : Lined [l] := by
  by_cases last : l.getLast? = some '\n'
  · exact .cons (ended_iff.2 ⟨only, last⟩) .nil
  · refine .unended filled fun hn => ?_
    rw [← List.dropLast_concat_getLast filled, List.mem_append] at hn
    have feed := List.mem_singleton.1 (hn.resolve_left only)
    exact last (by rw [List.getLast?_eq_some_getLast filled, ← feed])

theorem Lined.delimited (h : Lined ls) : Delimited ls := by
  refine ⟨fun l => h.ne_nil, fun l => h.notMem_dropLast, ?_⟩
  rcases List.eq_nil_or_concat' ls with rfl | ⟨above, last, rfl⟩
  · simp
  · rw [List.dropLast_concat]
    exact fun l hl => (h.ended l hl).getLast?

theorem Delimited.lined (h : Delimited ls) : Lined ls := by
  rcases List.eq_nil_or_concat' ls with rfl | ⟨above, last, rfl⟩
  · exact .nil
  · obtain ⟨-, filled⟩ := List.forall_mem_append.1 h.ne_nil
    obtain ⟨only, lowest⟩ := List.forall_mem_append.1 h.only_last
    have feeds := h.ended
    rw [List.dropLast_concat] at feeds
    have complete : ∀ l ∈ above, Ended l := fun l hl => ended_iff.2 ⟨only l hl, feeds l hl⟩
    exact .append complete
      (lined_singleton (filled last (List.mem_singleton_self _)) (lowest last (by simp)))

theorem splitLines_joinLines_iff : splitLines (joinLines ls) = ls ↔ Delimited ls := by
  constructor
  · intro same
    exact (same ▸ lined_splitLines (joinLines ls) : Lined ls).delimited
  · intro h
    exact splitLines_joinLines h.lined

theorem splitLines_append_iff :
    (∀ u, splitLines (t ++ u) = splitLines t ++ splitLines u) ↔
      t = [] ∨ t.getLast? = some '\n' := by
  constructor
  · intro h
    -- any line put below tells whether the last line above it is complete
    have below : splitLines (t ++ ['a']) = splitLines t ++ [['a']] := h ['a']
    have lined : Lined (splitLines t ++ [['a']]) := below ▸ lined_splitLines (t ++ ['a'])
    exact forall_ended_splitLines.1 lined.ended
  · exact splitLines_append

/-- A text is its lines put together, and the lines are the only delimited ones that give it. -/
theorem splitLines_inverse_joinLines (t : Text) (ls : List Line) :
    (Delimited (splitLines t) ∧ joinLines (splitLines t) = t) ∧
    (splitLines (joinLines ls) = ls ↔ Delimited ls) ∧
    ((∀ u, splitLines (t ++ u) = splitLines t ++ splitLines u) ↔
      t = [] ∨ t.getLast? = some '\n') :=
  ⟨⟨(lined_splitLines t).delimited, joinLines_splitLines t⟩, splitLines_joinLines_iff,
    splitLines_append_iff⟩

/-- A carriage return alone ends no line, and an empty line has its line feed. -/
def mixedBreaksText : Text := "\r\n\n\ra\r\nb".toList

theorem splitLines_inverse_joinLines_mixedBreaksText :
    let ls := ["\r\n".toList, "\n".toList, "\ra\r\n".toList, "b".toList]
    let swapped := ["b".toList, "\n".toList]
    splitLines mixedBreaksText = ls ∧ Delimited ls ∧ joinLines ls = mixedBreaksText ∧
    ¬ Delimited swapped ∧ splitLines (joinLines swapped) ≠ swapped ∧
    ¬ ∀ u, splitLines (mixedBreaksText ++ u) = splitLines mixedBreaksText ++ splitLines u := by
  intro ls swapped
  have lines : splitLines mixedBreaksText = ls := by decide
  have unlike : ¬ Delimited swapped := by decide
  obtain ⟨⟨delimited, text⟩, kept, seam⟩ := splitLines_inverse_joinLines mixedBreaksText swapped
  rw [lines] at delimited text
  exact ⟨lines, delimited, text, unlike, fun same => unlike (kept.1 same),
    fun apart => absurd (seam.1 apart) (by decide)⟩

end CallGuard
