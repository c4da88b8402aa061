import CallGuard.Candidates
import Mathlib.Data.List.Basic
import Mathlib.Data.List.TakeWhile
set_option autoImplicit false

/-!
# Names and the texts they spell

What a run asks of a name is said of its bytes: how it starts, and what follows its last dot. Only a
name that is a text can be hidden.
-/
namespace CallGuard

namespace Bytes

variable {b : Bytes} {s : String}

theorem text?_eq_some_iff : b.text? = some s ↔ b = utf8 s := by
  unfold text? String.fromUTF8?
  constructor
  · intro h
    split at h
    · cases h
      rfl
    · cases h
  · rintro rfl
    exact dif_pos s.isValidUTF8

theorem head?_utf8EncodeChar (c : Char) :
    (String.utf8EncodeChar c).head? = some dot ↔ c = '.' := by
  have same : c = '.' ↔ c.val.toNat = 0x2E := by
    rw [← Char.toNat_inj]
    rfl
  have byte (n : Nat) : UInt8.ofNat n = dot ↔ n % 256 = 0x2E := by
    rw [← UInt8.toNat_inj, UInt8.toNat_ofNat']
    rfl
  -- one case for each length of a character in bytes
  rw [String.utf8EncodeChar, same]
  split
  · simp only [List.head?_cons, Option.some.injEq, byte]
    omega
  · split
    · simp only [List.head?_cons, Option.some.injEq, byte]
      omega
    · split
      · simp only [List.head?_cons, Option.some.injEq, byte]
        omega
      · simp only [List.head?_cons, Option.some.injEq, byte]
        omega

theorem utf8_cons (c : Char) (cs : Text) :
    utf8 (String.ofList (c :: cs)) = String.utf8EncodeChar c ++ utf8 (String.ofList cs) := by
  simp [utf8, List.utf8Encode]

theorem head?_utf8 (s : String) : (utf8 s).head? = some dot ↔ s.toList.head? = some '.' := by
  have spelled := String.ofList_toList (s := s)
  cases h : s.toList with
  | nil =>
    rw [h] at spelled
    subst spelled
    decide
  | cons c cs =>
    rw [h] at spelled
    rw [← spelled, utf8_cons, List.head?_append_of_ne_nil _ String.utf8EncodeChar_ne_nil,
      head?_utf8EncodeChar, List.head?_cons, Option.some.injEq]

end Bytes

theorem takeWhile_eq_iff {α : Type} {p : α → Bool} {as xs : List α} :
    as.takeWhile p = xs ∧ xs.length + 1 < as.length ↔
      (∀ x ∈ xs, p x) ∧ ∃ a rest, p a = false ∧ rest ≠ [] ∧ as = xs ++ a :: rest := by
  constructor
  · rintro ⟨rfl, long⟩
    refine ⟨fun x hx => List.mem_takeWhile_imp hx, ?_⟩
    have cut := List.takeWhile_append_dropWhile (p := p) (l := as)
    have len := congrArg List.length cut
    have stop := List.head?_dropWhile_not p as
    cases hd : as.dropWhile p with
    | nil =>
      rw [hd, List.append_nil] at len
      omega
    | cons a rest =>
      rw [hd] at cut len stop
      refine ⟨a, rest, by simpa using stop, ?_, cut.symm⟩
      rintro rfl
      rw [List.length_append, List.length_singleton] at len
      omega
  · rintro ⟨all, a, rest, ha, hrest, rfl⟩
    have := List.length_pos_of_ne_nil hrest
    rw [List.takeWhile_append_of_pos all, List.takeWhile_cons_of_neg (by simp [ha]), List.append_nil,
      List.length_append, List.length_cons]
    exact ⟨rfl, by omega⟩

namespace Name

variable {n : Name} {ext : Bytes}

theorem isHidden_iff : n.isHidden ↔ n.head? = some Bytes.dot ∧ n.text?.isSome := by
  rw [isHidden, beq_iff_eq]
  cases h : n.text? with
  | none => simp
  | some s =>
    rw [Bytes.text?_eq_some_iff.1 h, Bytes.head?_utf8]
    simp

/-- What follows the last dot of a name is its extension, if something comes before the dot. -/
theorem extension?_eq_some_iff : n.extension? = some ext ↔
    ∃ stem, stem ≠ [] ∧ Bytes.dot ∉ ext ∧ n = stem ++ Bytes.dot :: ext := by
  have read : n.extension? = some ext ↔ n.reverse.takeWhile (· != Bytes.dot) = ext.reverse ∧
      ext.reverse.length + 1 < n.reverse.length := by
    rw [extension?]
    split
    · rename_i h
      rw [Option.some.injEq, List.reverse_eq_iff]
      exact ⟨fun e => ⟨e, e ▸ h⟩, And.left⟩
    · rename_i h
      refine iff_of_false nofun ?_
      rintro ⟨e, long⟩
      exact h (e ▸ long)
  rw [read, takeWhile_eq_iff]
  constructor
  · rintro ⟨clear, b, rest, stop, named, cut⟩
    obtain rfl : b = Bytes.dot := by simpa using stop
    refine ⟨rest.reverse, by simpa using named, fun h => ?_, by simpa using congrArg List.reverse cut⟩
    simpa using clear Bytes.dot (List.mem_reverse.2 h)
  · rintro ⟨stem, named, clear, rfl⟩
    refine ⟨fun b hb => ?_, Bytes.dot, stem.reverse, by simp, by simpa using named, by simp⟩
    rw [bne_iff_ne]
    rintro rfl
    exact clear (List.mem_reverse.1 hb)

end Name

theorem Selection.wants_iff {s : Selection} {n : Name} : s.wants n ↔
    ∃ stem, ∃ ext ∈ s.extensions, stem ≠ [] ∧ Bytes.dot ∉ utf8 ext ∧
      n = stem ++ Bytes.dot :: utf8 ext := by
  rw [wants, Option.any_eq_true]
  simp only [Option.bind_eq_some_iff, Name.extension?_eq_some_iff, Bytes.text?_eq_some_iff,
    List.contains_iff_mem]
  constructor
  · rintro ⟨ext, ⟨bytes, ⟨stem, named, clear, cut⟩, rfl⟩, wanted⟩
    exact ⟨stem, ext, wanted, named, clear, cut⟩
  · rintro ⟨stem, ext, wanted, named, clear, cut⟩
    exact ⟨ext, ⟨utf8 ext, ⟨stem, named, clear, cut⟩, rfl⟩, wanted⟩

end CallGuard
