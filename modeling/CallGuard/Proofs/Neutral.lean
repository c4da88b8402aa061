import CallGuard.Proofs.Additions
import CallGuard.Proofs.Stability
set_option autoImplicit false

/-!
# Neutral dialects

In a neutral dialect the markers have no part in the lexical rules. The lines that an insertion
writes are then quiet: the output has the statements of the text, each moved by the marker lines
above it.
-/
namespace CallGuard

def Dialect.Exclusive (d : Dialect) : Prop := ∀ l : Line, d.opensGuard l → d.closesGuard l = false

structure Dialect.Neutral (d : Dialect) : Prop where
  valid : d.fault? = none
  visible : ∀ c ∈ d.roles, isBlank c = false
  openMarker : '\n' ∉ d.openMarker ∧ ∀ c ∈ d.openMarker, c ∉ d.roles
  closeMarker : '\n' ∉ d.closeMarker ∧ ∀ c ∈ d.closeMarker, c ∉ d.roles
  comment : ∀ c ∈ d.lineComment, c ≠ '\r' ∧ c ≠ '\n'
  exclusive : d.Exclusive

variable {d : Dialect}

theorem Dialect.Exclusive.closes (h : d.Exclusive) {l : Line} (hc : d.closesGuard l) :
    d.opensGuard l = false := by
  cases ho : d.opensGuard l with
  | false => rfl
  | true =>
    rw [h l ho] at hc
    cases hc

theorem exclusive_of_not_prefix (h1 : ¬ trim d.openMarker <+: trim d.closeMarker)
    (h2 : ¬ trim d.closeMarker <+: trim d.openMarker) : d.Exclusive := by
  intro l ho
  cases hc : d.closesGuard l with
  | false => rfl
  | true =>
    obtain ⟨r, hr, -⟩ := isDirective_iff.1 ho
    obtain ⟨q, hq, -⟩ := isDirective_iff.1 hc
    rcases List.prefix_or_prefix_of_prefix ⟨r, hr.symm⟩ ⟨q, hq.symm⟩ with h | h
    · exact absurd h h1
    · exact absurd h h2

/-! ## Lines without lexical characters -/

theorem quiet_of_notMem (hd : ∀ token ∈ d.callTokens, token ≠ []) {l : Line}
    (hl : ∀ c ∈ l, c ∉ d.roles) : Quiet d l := by
  have plain (s : Scan) {g : Glyph} (hg : g ∈ classify d s l) : g.char ∉ d.roles := by
    apply hl g.char
    rw [← map_char_classify d s l]
    exact List.mem_map_of_mem hg
  refine ⟨?_, fun q n hn => ⟨n, Nat.le_refl n, openDepth_of_notMem (fun g hg => plain _ hg) n⟩,
    fun q => ?_⟩
  · -- a call would bring the opening delimiter
    cases hc : hasCall d l with
    | false => rfl
    | true =>
      obtain ⟨k, hk⟩ := Option.isSome_iff_exists.1 hc
      obtain ⟨g, hg, ho⟩ := callFrom_opens hd hk
      have char : g.char = d.openDelim := by
        simp only [Glyph.opens, Glyph.isCode, Bool.and_eq_true, beq_iff_eq] at ho
        exact ho.2
      exact absurd (by simp [Dialect.roles, char]) (plain {} (List.mem_of_mem_drop hg))
  · by_cases hn : l = []
    · rw [hn]
      rfl
    · rw [Scan.after_of_notMem hl hn]

namespace Dialect.Neutral

theorem closeMarker_ne_nil (hd : d.Neutral) : d.closeMarker ≠ [] :=
  CallGuard.closeMarker_ne_nil hd.valid

theorem blank_notMem (hd : d.Neutral) {c : Char} (h : isBlank c) : c ∉ d.roles := by
  intro hc
  rw [hd.visible c hc] at h
  cases h

theorem breakFree (hd : d.Neutral) : d.BreakFree where
  tokens := (Dialect.fault?_eq_none_iff.1 hd.valid).tokens
  roles := by
    refine fun c hc => ⟨?_, ?_⟩
    · rintro rfl
      exact hd.blank_notMem (by decide) hc
    · rintro rfl
      exact hd.blank_notMem (by decide) hc
  comment := hd.comment

theorem splitLines_opening (hd : d.Neutral) (first : Line) :
    splitLines (openingText d first) = [openingText d first] :=
  splitLines_openingText hd.openMarker.1 first

theorem splitLines_closing (hd : d.Neutral) (first last : Line) :
    splitLines (closingText d first last) = [closingText d first last] :=
  splitLines_closingText hd.closeMarker.1 hd.closeMarker_ne_nil first last

theorem unobtrusive (hd : d.Neutral) : d.Unobtrusive where
  toBreakFree := hd.breakFree
  opening first l hl := by
    rw [hd.splitLines_opening, List.mem_singleton] at hl
    subst hl
    apply quiet_of_notMem hd.breakFree.token_ne_nil
    intro c hc
    rw [openingText, List.mem_append, List.mem_append] at hc
    rcases hc with (hc | hc) | hc
    · exact hd.blank_notMem (mem_indent hc).1
    · exact hd.openMarker.2 c hc
    · exact hd.blank_notMem (isBlank_of_mem_lineBreak hc)
  closing first last l hl := by
    rw [hd.splitLines_closing, List.mem_singleton] at hl
    subst hl
    apply quiet_of_notMem hd.breakFree.token_ne_nil
    intro c hc
    rw [closingText, List.mem_append, List.mem_append] at hc
    rcases hc with (hc | hc) | hc
    · exact hd.blank_notMem (mem_indent hc).1
    · exact hd.closeMarker.2 c hc
    · split at hc
      · cases hc
      · exact hd.blank_notMem (isBlank_of_mem_lineBreak hc)

end Dialect.Neutral

theorem Dialect.swift_neutral : Dialect.swift.Neutral := by
  have visible : Dialect.swift.roles.all fun c => !isBlank c := by decide
  have opener : Dialect.swift.openMarker.all fun c => !Dialect.swift.roles.contains c := by decide
  have closer : Dialect.swift.closeMarker.all fun c => !Dialect.swift.roles.contains c := by decide
  have comment : Dialect.swift.lineComment.all fun c => c != '\r' && c != '\n' := by decide
  simp only [List.all_eq_true, Bool.not_eq_true', Bool.and_eq_true, bne_iff_ne,
    List.contains_eq_mem, decide_eq_false_iff_not] at visible opener closer comment
  exact {
    valid := by decide
    visible
    openMarker := ⟨by decide, opener⟩
    closeMarker := ⟨by decide, closer⟩
    comment
    exclusive := exclusive_of_not_prefix (by decide) (by decide) }

end CallGuard
