import CallGuard.Proofs.Closers
set_option autoImplicit false

/-!
# The first call of a line

A call is a call token that stands in code as a whole word, with an opening delimiter behind blanks.
Where word characters neither begin nor escape anything, a word that begins in code is code to its
end, so the search may look at its first character alone. It finds the leftmost call.
-/
namespace CallGuard

/-- Behind `before` a call token stands in code as a whole word, and then blanks and the opening
delimiter `op`. -/
structure Calls (d : Dialect) (before word blanks : List Glyph) (op : Glyph) : Prop where
  token : word.map Glyph.char ∈ d.callTokens
  code : ∀ g ∈ word, g.region = .code
  apart : ∀ g, before.getLast? = some g → isWordChar g.char = false
  whole : ∀ g, (blanks ++ [op]).head? = some g → isWordChar g.char = false
  blank : ∀ g ∈ blanks, g.isCode ' ' ∨ g.isCode '\t'
  opens : op.isCode d.openDelim

/-- In the line, classified from its start, a call stands behind `before`. -/
def CallBehind (d : Dialect) (l : Line) (before : List Glyph) : Prop :=
  ∃ word blanks op rest, classify d {} l = before ++ (word ++ (blanks ++ op :: rest)) ∧
    Calls d before word blanks op

def CallAt (d : Dialect) (l : Line) (offset : Nat) : Prop :=
  ∃ before, CallBehind d l before ∧ byteWidth (before.map Glyph.char) = offset

/-- Word characters have no part in strings, comments and opening delimiters, and these no part in
the blanks behind a call token. -/
structure Dialect.WordFree (d : Dialect) : Prop where
  tokens : ∀ token ∈ d.callTokens, isIdentifier token
  quote : isWordChar d.quote = false
  escape : isWordChar d.escape = false
  openDelim : isWordChar d.openDelim = false
  comment : ∀ (c : Char) (t : Text), d.lineComment.isPrefixOf (c :: t) → isWordChar c = false
  solid : d.openDelim ≠ ' ' ∧ d.openDelim ≠ '\t'

def headAt (d : Dialect) (before : Option Char) (gs : List Glyph) (k : Nat) : Bool :=
  match gs.drop k with
  | [] => false
  | g :: rest => isCallHead d (((gs.take k).getLast?.map Glyph.char).or before) g rest

variable {d : Dialect} {s u : Scan} {c : Char} {k o : Nat} {l : Line} {t w : Text} {g op : Glyph}
  {gs before word blanks rest : List Glyph}

/-! ## Words in code -/

theorem ne_of_isWordChar {e : Char} (hc : isWordChar c) (he : isWordChar e = false) : c ≠ e := by
  rintro rfl
  rw [hc] at he
  cases he

section
variable (hd : d.WordFree) (hc : isWordChar c)
include hd hc

theorem step_word (l : Line) : Scan.step d {} c l = some (.code, {}) := by
  have no : d.lineComment.isPrefixOf (c :: l) = false := by
    cases h : d.lineComment.isPrefixOf (c :: l) with
    | false => rfl
    | true => exact absurd rfl (ne_of_isWordChar hc (hd.comment c l h))
  simp [Scan.step, ne_of_isWordChar hc hd.escape, ne_of_isWordChar hc hd.quote, no, Scan.plain]

/-- A word character is code only in the state in which nothing is open. -/
theorem eq_of_step_code (h : s.step d c l = some (.code, u)) : u = {} := by
  obtain ⟨q, p⟩ := s
  rw [Scan.step, if_neg (ne_of_isWordChar hc hd.escape), if_neg (ne_of_isWordChar hc hd.quote)] at h
  cases p <;> cases q <;> simp_all [Scan.plain]

end

theorem classify_word (hd : d.WordFree) (hw : ∀ c ∈ w, isWordChar c) (t : Text) :
    classify d {} (w ++ t) = w.map (⟨·, .code⟩) ++ classify d {} t := by
  induction w with
  | nil => rfl
  | cons c w ih =>
    obtain ⟨hc, hw⟩ := List.forall_mem_cons.1 hw
    rw [List.cons_append, classify, step_word hd hc]
    simp [ih hw]

theorem exists_classify_behind (hd : d.WordFree) (cut : classify d s l = before ++ g :: rest)
    (hr : g.region = .code) (hg : isWordChar g.char) : ∃ t, rest = classify d {} t := by
  induction l generalizing s before with
  | nil => simp [classify] at cut
  | cons c l ih =>
    rw [classify] at cut
    split at cut
    · rename_i r u hstep
      cases before with
      | nil =>
        obtain ⟨rfl, rfl⟩ := List.cons.inj cut
        obtain rfl : r = .code := hr
        exact ⟨l, by rw [eq_of_step_code hd hg hstep]⟩
      | cons b before => exact ih (List.cons.inj cut).2
    · have mem : g ∈ (c :: l).map fun c => (⟨c, .comment⟩ : Glyph) := by simp [cut]
      obtain ⟨c, -, rfl⟩ := List.mem_map.1 mem
      cases hr

theorem code_of_word (hd : d.WordFree) (cut : classify d s l = before ++ g :: (word ++ rest))
    (hr : g.region = .code) (hw : ∀ k ∈ g :: word, isWordChar k.char) :
    ∀ k ∈ g :: word, k.region = .code := by
  obtain ⟨hg, hw⟩ := List.forall_mem_cons.1 hw
  refine List.forall_mem_cons.2 ⟨hr, ?_⟩
  obtain ⟨t, ht⟩ := exists_classify_behind hd cut hr hg
  have spelled : word.map Glyph.char ++ rest.map Glyph.char = t := by
    rw [← List.map_append, ht, map_char_classify]
  rw [← spelled, classify_word hd (by simpa using hw)] at ht
  obtain ⟨same, -⟩ := List.append_inj ht (by simp)
  intro k hk
  rw [same] at hk
  obtain ⟨c, -, rfl⟩ := List.mem_map.1 hk
  rfl

/-! ## The head of a call -/

theorem skipBlanks_append (hb : ∀ g ∈ blanks, g.isCode ' ' ∨ g.isCode '\t')
    (ho : op.isCode ' ' = false ∧ op.isCode '\t' = false) :
    skipBlanks (blanks ++ op :: rest) = op :: rest := by
  induction blanks with
  | nil => rw [List.nil_append, skipBlanks, ho.1, ho.2]; rfl
  | cons b blanks ih =>
    obtain ⟨hb, hbs⟩ := List.forall_mem_cons.1 hb
    rw [List.cons_append, skipBlanks, if_pos (by simpa using hb)]
    exact ih hbs

theorem Glyph.char_of_isCode (h : g.isCode c) : g.char = c := by
  simp only [Glyph.isCode, Bool.and_eq_true, beq_iff_eq] at h
  exact h.2

theorem isCode_eq_false (h : g.char ≠ c) : g.isCode c = false := by
  simp [Glyph.isCode, h]

/-- What stands behind a call token ends the word. -/
theorem isWordChar_behind (hd : d.WordFree) (hb : ∀ g ∈ blanks, g.isCode ' ' ∨ g.isCode '\t')
    (ho : op.isCode d.openDelim) : ∀ g ∈ blanks ++ [op], isWordChar g.char = false := by
  intro g hg
  rcases List.mem_append.1 hg with hg | hg
  · rcases hb g hg with space | tab
    · rw [Glyph.char_of_isCode space]
      decide
    · rw [Glyph.char_of_isCode tab]
      decide
  · rw [List.mem_singleton.1 hg, Glyph.char_of_isCode ho, hd.openDelim]

theorem Dialect.WordFree.token_ne_nil (hd : d.WordFree) : ∀ token ∈ d.callTokens, token ≠ [] :=
  fun token ht => ne_nil_of_isIdentifier (hd.tokens token ht)

theorem Calls.exists_cons (hd : d.WordFree) (h : Calls d before word blanks op) :
    ∃ g ws, word = g :: ws := by
  refine List.exists_cons_of_ne_nil fun none => hd.token_ne_nil _ h.token ?_
  rw [none, List.map_nil]

theorem exists_calls (hd : d.WordFree) (cut : classify d {} l = before ++ g :: rest)
    (head : isCallHead d (before.getLast?.map Glyph.char) g rest) : ∃ word blanks op after,
      rest = word ++ (blanks ++ op :: after) ∧ Calls d before (g :: word) blanks op := by
  obtain ⟨word, blanks, op, after, rfl, token, blank, opens⟩ :=
    exists_of_isCallHead hd.token_ne_nil head
  simp only [isCallHead, Bool.and_eq_true, beq_iff_eq] at head
  refine ⟨word, blanks, op, after, rfl, token, ?_, ?_, ?_, blank, opens⟩
  · exact code_of_word hd cut head.1.1.1 fun k hk =>
      isWordChar_of_mem (hd.tokens _ token) (List.mem_map_of_mem hk)
  · intro k hk
    simpa [hk] using head.1.2
  · intro k hk
    exact isWordChar_behind hd blank opens k (List.mem_of_head? hk)

theorem Calls.isCallHead {after : List Glyph} (hd : d.WordFree)
    (h : Calls d before (g :: word) blanks op) :
    isCallHead d (before.getLast?.map Glyph.char) g (word ++ (blanks ++ op :: after)) := by
  have first : isWordChar g.char := isWordChar_of_mem (hd.tokens _ h.token) (by simp)
  have solid : op.isCode ' ' = false ∧ op.isCode '\t' = false := by
    have char := Glyph.char_of_isCode h.opens
    exact ⟨isCode_eq_false (char ▸ hd.solid.1), isCode_eq_false (char ▸ hd.solid.2)⟩
  simp only [CallGuard.isCallHead, Bool.and_eq_true, beq_iff_eq, List.any_eq_true]
  refine ⟨⟨⟨h.code g List.mem_cons_self, first⟩, ?_⟩, _, h.token, ?_, ?_⟩
  · cases hb : before.getLast? with
    | none => rfl
    | some b => simpa using h.apart b hb
  · rw [List.isPrefixOf_iff_prefix, ← List.cons_append, List.map_append]
    exact List.prefix_append _ _
  · rw [← List.cons_append, List.length_map, List.drop_left, opensNext,
      skipBlanks_append h.blank solid]
    exact h.opens

/-! ## The search -/

theorem headAt_zero (before : Option Char) (g : Glyph) (gs : List Glyph) :
    headAt d before (g :: gs) 0 = isCallHead d before g gs := by
  cases before <;> rfl

theorem headAt_succ (before : Option Char) (g : Glyph) (gs : List Glyph) (k : Nat) :
    headAt d before (g :: gs) (k + 1) = headAt d (some g.char) gs k := by
  have last : (((g :: gs).take (k + 1)).getLast?.map Glyph.char).or before =
      ((gs.take k).getLast?.map Glyph.char).or (some g.char) := by
    rw [List.take_succ_cons, List.getLast?_cons]
    cases (gs.take k).getLast? <;> rfl
  unfold headAt
  rw [List.drop_succ_cons, last]

theorem callFrom_eq_find? (before : Option Char) (gs : List Glyph) :
    callFrom d before gs = (List.range gs.length).find? (headAt d before gs) := by
  induction gs generalizing before with
  | nil => rfl
  | cons g gs ih =>
    rw [callFrom, List.length_cons, List.range_succ_eq_map, List.find?_cons, headAt_zero]
    cases isCallHead d before g gs with
    | true => rfl
    | false =>
      have later : headAt d before (g :: gs) ∘ Nat.succ = headAt d (some g.char) gs :=
        funext (headAt_succ before g gs)
      rw [List.find?_map, later, ← ih]
      rfl

theorem CallBehind.begins (h : CallBehind d l before) : before <+: classify d {} l := by
  obtain ⟨word, blanks, op, rest, cut, -⟩ := h
  exact ⟨_, cut.symm⟩

theorem CallBehind.lt (h : CallBehind d l before) : before.length < (classify d {} l).length := by
  obtain ⟨word, blanks, op, rest, cut, -⟩ := h
  rw [cut]
  simp only [List.length_append, List.length_cons]
  omega

theorem headAt_iff (hd : d.WordFree) : headAt d none (classify d {} l) k ↔
    ∃ before, CallBehind d l before ∧ before.length = k := by
  constructor
  · intro head
    have cut := List.take_append_drop k (classify d {} l)
    unfold headAt at head
    split at head
    · cases head
    · rename_i g rest behind
      have short : k ≤ (classify d {} l).length := by
        refine Nat.le_of_not_lt fun lt => ?_
        rw [List.drop_eq_nil_of_le lt.le] at behind
        cases behind
      rw [behind] at cut
      rw [Option.or_none] at head
      obtain ⟨word, blanks, op, after, rfl, calls⟩ := exists_calls hd cut.symm head
      exact ⟨_, ⟨_, blanks, op, after, cut.symm, calls⟩, List.length_take_of_le short⟩
  · rintro ⟨before, ⟨word, blanks, op, after, cut, calls⟩, rfl⟩
    obtain ⟨g, ws, rfl⟩ := calls.exists_cons hd
    rw [headAt, cut, List.drop_left, List.take_left, Option.or_none]
    exact calls.isCallHead hd

theorem callAt?_eq_some_iff (hd : d.WordFree) : callAt? d l = some k ↔
    (∃ before, CallBehind d l before ∧ before.length = k) ∧
      ∀ before, CallBehind d l before → k ≤ before.length := by
  rw [callAt?, callFrom_eq_find?, List.find?_range_eq_some, headAt_iff hd]
  constructor
  · rintro ⟨here, -, none⟩
    refine ⟨here, fun before hb => Nat.not_lt.1 fun lt => ?_⟩
    have := none _ lt
    rw [(headAt_iff hd).2 ⟨before, hb, rfl⟩] at this
    cases this
  · rintro ⟨here, least⟩
    refine ⟨here, ?_, fun j hj => ?_⟩
    · obtain ⟨before, hb, rfl⟩ := here
      exact List.mem_range.2 hb.lt
    · rw [Bool.not_eq_true']
      refine Bool.eq_false_iff.2 fun head => ?_
      obtain ⟨before, hb, rfl⟩ := (headAt_iff hd).1 head
      exact absurd (least before hb) (Nat.not_le.2 hj)

theorem CallBehind.exists_callAt? (hd : d.WordFree) (h : CallBehind d l before) :
    ∃ k, callAt? d l = some k := by
  cases hk : callAt? d l with
  | some k => exact ⟨k, rfl⟩
  | none =>
    rw [callAt?, callFrom_eq_find?, List.find?_range_eq_none] at hk
    have none := hk _ h.lt
    rw [(headAt_iff hd).2 ⟨before, h, rfl⟩] at none
    cases none

theorem CallBehind.byteWidth_le {farther : List Glyph} (h : CallBehind d l before)
    (hf : CallBehind d l farther) (len : before.length ≤ farther.length) :
    byteWidth (before.map Glyph.char) ≤ byteWidth (farther.map Glyph.char) := by
  obtain ⟨between, rfl⟩ := List.prefix_of_prefix_length_le h.begins hf.begins len
  rw [List.map_append, byteWidth_append]
  exact Nat.le_add_right _ _

theorem CallBehind.byteWidth_eq (h : CallBehind d l before) :
    byteWidth (before.map Glyph.char) = byteWidth (l.take before.length) := by
  obtain ⟨word, blanks, op, rest, cut, -⟩ := h
  exact byteWidth_cut cut

theorem callColumn?_eq_some_iff (hd : d.WordFree) : callColumn? d l = some o ↔
    CallAt d l o ∧ ∀ p, CallAt d l p → o ≤ p := by
  rw [callColumn?_eq_map, Option.map_eq_some_iff]
  constructor
  · rintro ⟨k, hk, rfl⟩
    obtain ⟨⟨before, hb, rfl⟩, least⟩ := (callAt?_eq_some_iff hd).1 hk
    rw [← hb.byteWidth_eq]
    refine ⟨⟨before, hb, rfl⟩, ?_⟩
    rintro p ⟨other, ho, rfl⟩
    exact hb.byteWidth_le ho (least other ho)
  · rintro ⟨⟨before, hb, rfl⟩, least⟩
    obtain ⟨k, hk⟩ := hb.exists_callAt? hd
    obtain ⟨⟨first, hf, rfl⟩, leftmost⟩ := (callAt?_eq_some_iff hd).1 hk
    refine ⟨_, hk, ?_⟩
    rw [← hf.byteWidth_eq]
    exact Nat.le_antisymm (hf.byteWidth_le hb (leftmost before hb)) (least _ ⟨first, hf, rfl⟩)

/-! ## Other lists of the same tokens -/

def Dialect.withTokens (d : Dialect) (tokens : List Text) : Dialect := { d with callTokens := tokens }

theorem classify_withTokens (tokens : List Text) (s : Scan) (l : Line) :
    classify (d.withTokens tokens) s l = classify d s l := by
  apply classify_congr
  intros
  rfl

theorem callFrom_withTokens {tokens : List Text} (h : ∀ token, token ∈ tokens ↔ token ∈ d.callTokens)
    (before : Option Char) (gs : List Glyph) :
    callFrom (d.withTokens tokens) before gs = callFrom d before gs := by
  apply callFrom_congr
  intro before g gs
  unfold isCallHead
  congr 1
  rw [Bool.eq_iff_iff, List.any_eq_true, List.any_eq_true]
  exact exists_congr fun token => and_congr_left fun _ => h token

/-- The call that is found is the leftmost: the least byte offset at which a call token stands in
code as a whole word, behind no word character, with the opening delimiter behind blanks in code.
Neither the order of the call tokens nor their repetition matters. -/
theorem callColumn?_leftmost (hv : d.fault? = none) (hq : isWordChar d.quote = false)
    (he : isWordChar d.escape = false) (ho : isWordChar d.openDelim = false)
    (hc : ∀ c, d.lineComment.head? = some c → isWordChar c = false)
    (hs : d.openDelim ≠ ' ' ∧ d.openDelim ≠ '\t') (l : Line) :
    (∀ o, callColumn? d l = some o ↔ CallAt d l o ∧ ∀ p, CallAt d l p → o ≤ p) ∧
    ∀ tokens : List Text, (∀ token, token ∈ tokens ↔ token ∈ d.callTokens) →
      callColumn? (d.withTokens tokens) l = callColumn? d l := by
  have valid := Dialect.fault?_eq_none_iff.1 hv
  have hd : d.WordFree := {
    tokens := valid.tokens
    quote := hq
    escape := he
    openDelim := ho
    comment := fun c t begins => by
      obtain ⟨a, as, e⟩ := List.exists_cons_of_ne_nil valid.comment
      rw [e, List.isPrefixOf_iff_prefix, List.cons_prefix_cons] at begins
      exact hc c (by rw [e, List.head?_cons, begins.1])
    solid := hs }
  refine ⟨fun o => callColumn?_eq_some_iff hd, fun tokens same => ?_⟩
  rw [callColumn?_eq_map, callColumn?_eq_map, callAt?, callAt?, classify_withTokens,
    callFrom_withTokens same]

/-- A longer word, an escape, a string and a comment hold what would be calls; before the call stands
a character of two bytes. -/
def crowdedLine : Line :=
  "logs(a) \\log(b) \"log(c)\" \u00e9.logger \t(d) log(e) // log(f)".toList

theorem callColumn?_leftmost_crowdedLine :
    let d := Dialect.swift.withTokens (["log", "logger"].map String.toList)
    (CallAt d crowdedLine 28 ∧ ∀ p, CallAt d crowdedLine p → 28 ≤ p) ∧
      callColumn? (d.withTokens (["logger", "log", "logger"].map String.toList)) crowdedLine =
        some 28 := by
  intro d
  have comment : ∀ c, d.lineComment.head? = some c → isWordChar c = false := by
    rintro _ ⟨⟩
    decide +kernel
  obtain ⟨leftmost, anyOrder⟩ := callColumn?_leftmost (d := d) (by decide +kernel) (by decide +kernel)
    (by decide +kernel) (by decide +kernel) comment (by decide +kernel) crowdedLine
  have found : callColumn? d crowdedLine = some 28 := by decide +kernel
  refine ⟨(leftmost 28).1 found, ?_⟩
  rw [anyOrder _ fun token => ?_, found]
  simp only [d, Dialect.withTokens, List.map_cons, List.map_nil, List.mem_cons, List.not_mem_nil]
  tauto

end CallGuard
