import CallGuard.Proofs.Plain
import CallGuard.Proofs.Windows
set_option autoImplicit false

/-!
# Lines that declare

A declaration is told by its words, and a word reaches to the next blank. Behind attributes and
modifiers a keyword is seen when a blank follows it or nothing does. With any other character behind
it the word is no keyword, so the line is no declaration and no search stops at it.
-/
namespace CallGuard

namespace Dialect

/-- What may stand before the keyword: an attribute, or a modifier, which may have an argument in
parentheses. -/
inductive Lead (d : Dialect) : Text → Prop where
  | tag {name : Text} (hn : isIdentifier name) : Lead d ('@' :: name)
  | bare {m : Text} (hm : m ∈ d.modifiers) : Lead d m
  | withArgument {m name : Text} (hm : m ∈ d.modifiers) (hn : isIdentifier name) :
      Lead d (m ++ '(' :: (name ++ [')']))

inductive Leads (d : Dialect) : Text → Prop where
  | nil : Leads d []
  | cons {w v t : Text} (hw : d.Lead w) (hv : Blank v) (hne : v ≠ []) (tail : Leads d t) :
      Leads d (w ++ (v ++ t))

/-- A line that begins with a keyword behind blanks and leads; `rest` stands behind the keyword and
does not go on with a word character. -/
inductive Heads (d : Dialect) : Line → Text → Prop where
  | intro {v t k rest : Text} (hv : Blank v) (ht : d.Leads t) (hk : k ∈ d.keywords)
      (ends : ∀ c, rest.head? = some c → isWordChar c = false) : Heads d (v ++ (t ++ (k ++ rest))) rest

/-- Keywords and modifiers are identifiers, and none is both. -/
structure Worded (d : Dialect) : Prop where
  keywords : ∀ k ∈ d.keywords, isIdentifier k
  modifiers : ∀ m ∈ d.modifiers, isIdentifier m
  apart : ∀ k ∈ d.keywords, k ∉ d.modifiers

end Dialect

variable {d : Dialect} {k l rest t v w : Text}

/-! ## Words -/

theorem isBlank_of_isWordChar {c : Char} (h : isWordChar c) : isBlank c = false := by
  cases hb : isBlank c with
  | false => rfl
  | true =>
    rw [isWordChar_of_isBlank hb] at h
    cases h

theorem identifier_solid (h : isIdentifier t) : ∀ c ∈ t, isBlank c = false :=
  fun _ hc => isBlank_of_isWordChar (isWordChar_of_mem h hc)

theorem words_word_append (hw : w ≠ []) (solid : ∀ c ∈ w, isBlank c = false) (t : Text) :
    ∃ ws, words (w ++ t) = (w ++ t.takeWhile fun c => !isBlank c) :: ws := by
  have cut := List.takeWhile_append_dropWhile (p := fun c => !isBlank c) (l := t)
  have whole : ∀ c ∈ w ++ t.takeWhile fun c => !isBlank c, ¬isBlank c := by
    intro c hc
    rcases List.mem_append.1 hc with hc | hc
    · simp [solid c hc]
    · simpa using List.all_eq_true.1 List.all_takeWhile c hc
  have one : words (w ++ t.takeWhile fun c => !isBlank c) = [w ++ t.takeWhile fun c => !isBlank c] := by
    rw [words, stretches_of_none whole]
    simp [hw]
  cases hd : t.dropWhile fun c => !isBlank c with
  | nil =>
    rw [hd, List.append_nil] at cut
    exact ⟨[], by rw [cut] at one ⊢; exact one⟩
  | cons c u =>
    have blank : isBlank c := by
      have := List.head?_dropWhile_not (fun c => !isBlank c) t
      rw [hd] at this
      simpa using this
    refine ⟨words u, ?_⟩
    rw [hd] at cut
    conv_lhs => rw [← cut, ← List.append_assoc]
    rw [words_append_cons blank, one]
    rfl

/-! ## What stands before the keyword -/

theorem identifier_no_paren (h : isIdentifier t) : ∀ c ∈ t, (c != '(') = true := by
  intro c hc
  rw [bne_iff_ne]
  rintro rfl
  have := isWordChar_of_mem h hc
  revert this
  decide +kernel

theorem head?_ne_at (h : isIdentifier t) (u : Text) : (t ++ u).head? ≠ some '@' := by
  cases t with
  | nil => cases h
  | cons c t =>
    rintro ⟨⟩
    have := isWordChar_of_mem h List.mem_cons_self
    revert this
    decide +kernel

theorem declaredBy_modified (h : (w.takeWhile (· != '(')) ∈ d.modifiers) (ws : List Text) :
    d.declaredBy (w :: ws) = d.declaredBy ws := by
  rw [Dialect.declaredBy]
  split
  · rfl
  · rw [if_pos (List.contains_iff_mem.2 h)]

namespace Dialect

variable (hd : d.Worded)
include hd

theorem Lead.declaredBy (h : d.Lead w) (ws : List Text) : d.declaredBy (w :: ws) = d.declaredBy ws := by
  cases h with
  | tag => exact if_pos rfl
  | bare hm =>
    have whole := List.takeWhile_eq_self_iff.2 (identifier_no_paren (hd.modifiers w hm))
    exact declaredBy_modified (by rwa [whole]) ws
  | @withArgument m name hm =>
    apply declaredBy_modified
    rw [List.takeWhile_append_of_pos (identifier_no_paren (hd.modifiers m hm))]
    simpa using hm

theorem Lead.solid (h : d.Lead w) : w ≠ [] ∧ ∀ c ∈ w, isBlank c = false := by
  cases h with
  | tag hn =>
    exact ⟨List.cons_ne_nil _ _, List.forall_mem_cons.2 ⟨by decide, identifier_solid hn⟩⟩
  | bare hm =>
    have name := hd.modifiers w hm
    exact ⟨ne_nil_of_isIdentifier name, identifier_solid name⟩
  | @withArgument m name hm hn =>
    refine ⟨by simp, fun c hc => ?_⟩
    simp only [List.mem_append, List.mem_cons, List.not_mem_nil, or_false] at hc
    rcases hc with hc | rfl | hc | rfl
    · exact identifier_solid (hd.modifiers m hm) c hc
    · decide
    · exact identifier_solid hn c hc
    · decide

theorem Lead.words (h : d.Lead w) (hv : Blank v) (hne : v ≠ []) (t : Text) :
    words (w ++ (v ++ t)) = w :: words t := by
  obtain ⟨c, u, rfl⟩ := List.exists_cons_of_ne_nil hne
  obtain ⟨blank, rest⟩ := List.forall_mem_cons.1 hv
  obtain ⟨some, solid⟩ := h.solid hd
  have one : CallGuard.words w = [w] := by
    rw [CallGuard.words, stretches_of_none fun a ha => by simp [solid a ha]]
    simp [some]
  rw [List.cons_append, words_append_cons blank, one, words_blank_append rest]
  rfl

theorem Leads.declaredBy (h : d.Leads t) (u : Text) :
    d.declaredBy (CallGuard.words (t ++ u)) = d.declaredBy (CallGuard.words u) := by
  induction h with
  | nil => rfl
  | cons hw hv hne _ ih =>
    rw [List.append_assoc, List.append_assoc, hw.words hd hv hne, hw.declaredBy hd, ih]

end Dialect

/-! ## The keyword -/

section
variable (hd : d.Worded) (hk : k ∈ d.keywords)
include hd hk

theorem declaredBy_keyword (ws : List Text) : d.declaredBy (k :: ws) = true := by
  have name := hd.keywords k hk
  have head := head?_ne_at name []
  rw [List.append_nil] at head
  have whole := List.takeWhile_eq_self_iff.2 (identifier_no_paren name)
  rw [Dialect.declaredBy, if_neg head, whole, if_neg (by simpa using hd.apart k hk)]
  exact List.contains_iff_mem.2 hk

/-- A word that goes on behind the keyword with a character of no word is no keyword, and what stands
in it before a parenthesis is no modifier. -/
theorem declaredBy_spoilt {c : Char} (hc : isWordChar c = false) (u : Text) (ws : List Text) :
    d.declaredBy ((k ++ c :: u) :: ws) = false := by
  have name := hd.keywords k hk
  have spoilt {t : Text} (ht : isIdentifier t) (u : Text) : t ≠ k ++ c :: u := by
    rintro rfl
    rw [isWordChar_of_mem ht (List.mem_append_right k List.mem_cons_self)] at hc
    cases hc
  have bare : (k ++ c :: u).takeWhile (· != '(') ∉ d.modifiers := by
    rw [List.takeWhile_append_of_pos (identifier_no_paren name)]
    by_cases paren : c = '('
    · simpa [paren] using hd.apart k hk
    · rw [List.takeWhile_cons_of_pos (by simpa using paren)]
      exact fun hm => spoilt (hd.modifiers _ hm) _ rfl
  rw [Dialect.declaredBy, if_neg (head?_ne_at name _), if_neg (by simpa using bare)]
  rw [Bool.eq_false_iff, Ne, List.contains_iff_mem]
  exact fun hm => spoilt (hd.keywords _ hm) u rfl

theorem isDeclaration_keyword (ends : ∀ c, rest.head? = some c → isWordChar c = false) :
    d.isDeclaration (k ++ rest) = rest.head?.all isBlank := by
  have name := hd.keywords k hk
  obtain ⟨ws, first⟩ := words_word_append (ne_nil_of_isIdentifier name) (identifier_solid name) rest
  rw [Dialect.isDeclaration, first]
  cases rest with
  | nil =>
    rw [List.takeWhile_nil, List.append_nil]
    exact declaredBy_keyword hd hk ws
  | cons c rest =>
    cases blank : isBlank c with
    | true =>
      rw [List.takeWhile_cons_of_neg (by simp [blank]), List.append_nil, declaredBy_keyword hd hk]
      simp [blank]
    | false =>
      rw [List.takeWhile_cons_of_pos (by simp [blank]), declaredBy_spoilt hd hk (ends c rfl)]
      simp [blank]

end

/-- A line that a keyword heads is a declaration when the keyword ends in a blank or ends the line. -/
theorem Dialect.Heads.isDeclaration (hd : d.Worded) (h : d.Heads l rest) :
    d.isDeclaration l = rest.head?.all isBlank := by
  cases h with
  | intro hv ht hk ends =>
    rw [Dialect.isDeclaration, words_blank_append hv, ht.declaredBy hd]
    exact isDeclaration_keyword hd hk ends

/-! ## Searches that come upon such a line -/

/-- The search upwards from line `i` comes to line `k`, which is no marker: in the lines between
fewer than `window` are no markers, none of these is a declaration, and no open marker there is
without a counterpart. -/
structure Reaches (d : Dialect) (ls : List Line) (i k : Nat) : Prop where
  above : k < i
  plain : unmarked d (lineAt ls k)
  clear : ∀ m ∈ between ls (k + 1) i, unmarked d m → d.isDeclaration m = false
  near : (between ls (k + 1) i).countP (unmarked d) < d.window
  own : ∀ ms, ms <:+ between ls (k + 1) i → ms.countP d.opensGuard ≤ ms.countP d.closesGuard

section
variable {ls : List Line} {i k : Nat}

theorem declaresAbove_iff (h : Reaches d ls i k) :
    DeclaresAbove d ls i k ↔ d.isDeclaration (lineAt ls k) :=
  ⟨fun found => found.declares, fun declares =>
    { above := h.above, plain := h.plain, declares, nearest := h.clear, near := h.near, own := h.own }⟩

theorem verdict_eq_declaration_iff : verdict d ls i = .unguarded (.declaration k) ↔
    opener d true ls i = .error (.declaration k) := by
  unfold verdict
  cases opener d true ls i with
  | error reason => simp
  | ok above => cases closer? d ls (lastLine d ls i) <;> simp

/-- A search halts at the line it reaches when that is a declaration. -/
theorem Reaches.verdict_iff (hx : d.Exclusive) (hi : i ≤ ls.length) (h : Reaches d ls i k) :
    verdict d ls i = .unguarded (.declaration k) ↔ d.isDeclaration (lineAt ls k) := by
  have plainly : ∀ m ∈ ls, Plainly d m := fun m _ => hx m
  rw [verdict_eq_declaration_iff, opener_eq_declaration_iff plainly hi, declaresAbove_iff h]

theorem reaches_succ (hw : 0 < d.window) (plain : unmarked d (lineAt ls k)) :
    Reaches d ls (k + 1) k := by
  have none : between ls (k + 1) (k + 1) = [] := by
    rw [between, List.drop_eq_nil_of_le (List.length_take_le _ _)]
  refine ⟨Nat.lt_succ_self k, plain, ?_, ?_, ?_⟩ <;> rw [none]
  · simp
  · exact hw
  · intro ms hms
    rw [List.suffix_nil.1 hms]
    exact Nat.le_refl _

end

theorem Dialect.swift_worded : Dialect.swift.Worded where
  keywords := by decide +kernel
  modifiers := by decide +kernel
  apart := by decide +kernel

/-- A line that a keyword heads behind attributes and modifiers is a declaration when the keyword ends
in a blank or ends the line, and not when any other character follows; so a search upwards that
reaches the line halts there in the first case only. -/
theorem swift_keyword_declares_before_blank {l rest : Text} (heads : Dialect.swift.Heads l rest) :
    (Dialect.swift.isDeclaration l ↔ rest.head?.all isBlank) ∧
    ∀ ls i k, i ≤ ls.length → Reaches .swift ls i k → lineAt ls k = l →
      (verdict .swift ls i = .unguarded (.declaration k) ↔ rest.head?.all isBlank) := by
  have told := heads.isDeclaration Dialect.swift_worded
  refine ⟨by rw [told], ?_⟩
  rintro ls i k hi reached rfl
  rw [reached.verdict_iff Dialect.swift_neutral.exclusive hi, told]

/-- A call below a declaration with an attribute and two modifiers, within one guard. -/
def propertyLines : List Line :=
  splitLines "#if DEBUG\n  @MainActor public private(set)\tvar n = 0\nprint(n)\n#endif\n".toList

def propertyLeads : Text :=
  "@MainActor".toList ++ (" ".toList ++ ("public".toList ++ (" ".toList ++
    (("private".toList ++ '(' :: ("set".toList ++ [')'])) ++ ("\t".toList ++ [])))))

theorem swift_keyword_declares_before_blank_propertyLines :
    (2 ≤ propertyLines.length ∧ Reaches .swift propertyLines 2 1 ∧
      Dialect.swift.Heads (lineAt propertyLines 1) " n = 0\n".toList) ∧
    Dialect.swift.isDeclaration (lineAt propertyLines 1) ∧
      verdict .swift propertyLines 2 = .unguarded (.declaration 1) := by
  have reached : Reaches .swift propertyLines 2 1 := reaches_succ (by decide) (by decide +kernel)
  have space : Blank " ".toList := List.all_eq_true.1 (by decide +kernel)
  have tab : Blank "\t".toList := List.all_eq_true.1 (by decide +kernel)
  have leads : Dialect.swift.Leads propertyLeads :=
    .cons (.tag (by decide +kernel)) space (by decide)
      (.cons (.bare (by decide)) space (by decide)
        (.cons (.withArgument (by decide) (by decide +kernel)) tab (by decide) .nil))
  have line : lineAt propertyLines 1 =
      "  ".toList ++ (propertyLeads ++ ("var".toList ++ " n = 0\n".toList)) := by
    decide +kernel
  have heads : Dialect.swift.Heads (lineAt propertyLines 1) " n = 0\n".toList := by
    rw [line]
    exact .intro (space.append space) leads (by decide) (by rintro _ ⟨⟩; decide +kernel)
  obtain ⟨declares, halts⟩ := swift_keyword_declares_before_blank heads
  exact ⟨⟨by decide +kernel, reached, heads⟩, declares.2 (by decide +kernel),
    (halts _ 2 1 (by decide +kernel) reached rfl).2 (by decide +kernel)⟩

/-- An initialiser is headed by a keyword, and yet it is no declaration: the guard above it counts
for the call below. -/
theorem parenthesis_spoils_keyword :
    let ls := splitLines "#if DEBUG\ninit(x: Int)\nprint(x)\n#endif\n".toList
    Dialect.swift.Heads (lineAt ls 1) "(x: Int)\n".toList ∧ Reaches .swift ls 2 1 ∧
      Dialect.swift.isDeclaration (lineAt ls 1) = false ∧ verdict .swift ls 2 = .guarded 0 3 := by
  intro ls
  have line : lineAt ls 1 = [] ++ ([] ++ ("init".toList ++ "(x: Int)\n".toList)) := by
    decide +kernel
  refine ⟨?_, reaches_succ (by decide) (by decide +kernel), by decide +kernel, by decide +kernel⟩
  rw [line]
  exact .intro (by simp [Blank]) .nil (by decide) (by rintro _ ⟨⟩; decide +kernel)

end CallGuard
