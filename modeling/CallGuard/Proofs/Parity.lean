import CallGuard.Proofs.Validity
import Mathlib.Data.List.DropRight
set_option autoImplicit false

/-!
# Regions by counting

What stands before a character tells its region, with the comments of earlier lines left out: an odd
run of escape characters right before it escapes it, an odd number of quotes that are not escaped
leaves a string open, and a comment begins where its prefix stands unescaped outside a string.
-/
namespace CallGuard

namespace Dialect

/-- Whether what stands behind `t` is escaped: the longest run of escape characters at the end of
`t` is odd. -/
def escapesNext (d : Dialect) (t : Text) : Bool := (t.rtakeWhile (· == d.escape)).length % 2 == 1

/-- How many quotes in `t` are not escaped. -/
def quoteCount (d : Dialect) (t : Text) : Nat :=
  (List.range t.length).countP fun k => t[k]? == some d.quote && !d.escapesNext (t.take k)

def leavesOpen (d : Dialect) (t : Text) : Bool := d.quoteCount t % 2 == 1

/-- Whether a comment can begin at character `k` of the line `l`, which stands behind `t`. -/
def commentAt (d : Dialect) (t : Text) (l : Line) (k : Nat) : Bool :=
  d.lineComment.isPrefixOf (l.drop k) && !d.escapesNext (t ++ l.take k) &&
    !d.leavesOpen (t ++ l.take k)

/-- Where the comment of the line begins: at the first place where it can, or at the end. -/
def commentStart (d : Dialect) (t : Text) (l : Line) : Nat :=
  ((List.range l.length).find? (d.commentAt t l)).getD l.length

/-- The text `t` and the lines behind it, without their comments. -/
def uncommented (d : Dialect) : Text → List Line → Text
  | t, [] => t
  | t, l :: ls => d.uncommented (t ++ l.take (d.commentStart t l)) ls

def regionBehind (d : Dialect) (t : Text) (c : Char) : Region :=
  if d.escapesNext t then .escaped else if c = d.quote ∨ d.leavesOpen t then .quoted else .code

def regionAt (d : Dialect) (t : Text) (l : Line) (k : Nat) (c : Char) : Region :=
  if k < d.commentStart t l then d.regionBehind (t ++ l.take k) c else .comment

end Dialect

def Scan.behind (d : Dialect) (t : Text) : Scan := ⟨d.leavesOpen t, d.escapesNext t⟩

/-- Quotes, escapes and comments begin with different characters. -/
structure Dialect.Separated (d : Dialect) : Prop where
  roles : d.quote ≠ d.escape
  comment : ∀ (c : Char) (t : Text), d.lineComment.isPrefixOf (c :: t) → c ≠ d.quote ∧ c ≠ d.escape

variable {d : Dialect} {t : Text} {l : Line} {ls : List Line} {c : Char} {i k : Nat}

theorem separated_of_head (hv : d.fault? = none) (hq : d.lineComment.head? ≠ some d.quote)
    (he : d.lineComment.head? ≠ some d.escape) : d.Separated := by
  have valid := Dialect.fault?_eq_none_iff.1 hv
  have roles := valid.roles
  simp only [Dialect.roles, List.nodup_cons, List.mem_cons, not_or] at roles
  refine ⟨roles.1.1, fun c t begins => ?_⟩
  obtain ⟨a, as, e⟩ := List.exists_cons_of_ne_nil valid.comment
  rw [e, List.isPrefixOf_iff_prefix, List.cons_prefix_cons] at begins
  rw [e, List.head?_cons, begins.1] at hq he
  exact ⟨fun h => hq (congrArg some h), fun h => he (congrArg some h)⟩

/-! ## One more character -/

theorem escapesNext_concat (t : Text) (c : Char) :
    d.escapesNext (t ++ [c]) = (c == d.escape && !d.escapesNext t) := by
  unfold Dialect.escapesNext
  rw [List.rtakeWhile_concat]
  split
  · rename_i hc
    rw [hc, List.length_append, List.length_singleton, Bool.true_and, Bool.eq_iff_iff]
    simp only [beq_iff_eq, Bool.not_eq_true', beq_eq_false_iff_ne]
    omega
  · rename_i hc
    simp [hc]

theorem quoteCount_concat (t : Text) (c : Char) : d.quoteCount (t ++ [c]) =
    d.quoteCount t + if c == d.quote && !d.escapesNext t then 1 else 0 := by
  unfold Dialect.quoteCount
  rw [List.length_append, List.length_singleton, List.range_succ, List.countP_append,
    List.countP_singleton, List.getElem?_concat_length, List.take_left]
  congr 1
  apply List.countP_congr
  intro k hk
  have lt : k < t.length := List.mem_range.1 hk
  rw [List.getElem?_append_left lt, List.take_append_of_le_length lt.le]

theorem leavesOpen_concat (t : Text) (c : Char) : d.leavesOpen (t ++ [c]) =
    (d.leavesOpen t ^^ (c == d.quote && !d.escapesNext t)) := by
  unfold Dialect.leavesOpen
  rw [quoteCount_concat]
  cases c == d.quote && !d.escapesNext t with
  | false => simp
  | true =>
    rw [if_pos rfl, Bool.xor_true, Bool.eq_iff_iff]
    simp only [beq_iff_eq, Bool.not_eq_true', beq_eq_false_iff_ne]
    omega

/-! ## Where the comment begins -/

theorem commentAt_succ (t : Text) (c : Char) (l : Line) (k : Nat) :
    d.commentAt t (c :: l) (k + 1) = d.commentAt (t ++ [c]) l k := by
  simp only [Dialect.commentAt, List.drop_succ_cons, List.take_succ_cons, List.append_assoc,
    List.singleton_append]

theorem commentStart_cons (t : Text) (c : Char) (l : Line) : d.commentStart t (c :: l) =
    if d.commentAt t (c :: l) 0 then 0 else d.commentStart (t ++ [c]) l + 1 := by
  unfold Dialect.commentStart
  rw [List.length_cons, List.range_succ_eq_map, List.find?_cons]
  cases d.commentAt t (c :: l) 0 with
  | true => rfl
  | false =>
    have later : d.commentAt t (c :: l) ∘ Nat.succ = d.commentAt (t ++ [c]) l :=
      funext (commentAt_succ t c l)
    rw [List.find?_map, later]
    cases (List.range l.length).find? (d.commentAt (t ++ [c]) l) <;> rfl

theorem commentStart_le_iff (h : k < l.length) :
    d.commentStart t l ≤ k ↔ ∃ j ≤ k, d.commentAt t l j := by
  unfold Dialect.commentStart
  cases found : (List.range l.length).find? (d.commentAt t l) with
  | none =>
    rw [List.find?_range_eq_none] at found
    refine iff_of_false (Nat.not_le.2 h) ?_
    rintro ⟨j, hj, begins⟩
    have := found j (by omega)
    simp [begins] at this
  | some n =>
    obtain ⟨begins, -, none⟩ := List.find?_range_eq_some.1 found
    refine ⟨fun le => ⟨n, le, begins⟩, ?_⟩
    rintro ⟨j, hj, here⟩
    refine Nat.le_trans (Nat.not_lt.1 fun lt => ?_) hj
    have := none j lt
    simp [here] at this

theorem regionBehind_ne_comment (t : Text) (c : Char) : d.regionBehind t c ≠ .comment := by
  unfold Dialect.regionBehind
  split
  · simp
  · split <;> simp

theorem regionAt_eq_comment_iff : d.regionAt t l k c = .comment ↔ d.commentStart t l ≤ k := by
  unfold Dialect.regionAt
  split
  · rename_i lt
    exact iff_of_false (regionBehind_ne_comment _ c) (Nat.not_le.2 lt)
  · rename_i ge
    exact iff_of_true rfl (Nat.not_lt.1 ge)

theorem regionAt_of_ne_comment (h : d.regionAt t l k c ≠ .comment) :
    d.regionAt t l k c = d.regionBehind (t ++ l.take k) c :=
  if_pos (Nat.not_le.1 (mt regionAt_eq_comment_iff.2 h))

/-! ## The scan -/

theorem behind_concat (t : Text) (c : Char) : Scan.behind d (t ++ [c]) =
    ⟨d.leavesOpen t ^^ (c == d.quote && !d.escapesNext t), c == d.escape && !d.escapesNext t⟩ := by
  rw [Scan.behind, leavesOpen_concat, escapesNext_concat]

section
variable (hd : d.Separated)
include hd

/-- The scan counts: from the state behind a text it goes to the state behind one character more,
unless a comment begins there. -/
theorem step_behind (t : Text) (c : Char) (l : Line) : (Scan.behind d t).step d c l =
    if d.commentAt t (c :: l) 0 then none
    else some (d.regionBehind t c, Scan.behind d (t ++ [c])) := by
  have begins (h : d.commentAt t (c :: l) 0) : c ≠ d.quote ∧ c ≠ d.escape := by
    simp only [Dialect.commentAt, Bool.and_eq_true, List.drop_zero] at h
    exact hd.comment c l h.1.1
  rw [behind_concat, Scan.step, Scan.behind, Dialect.regionBehind]
  cases hp : d.escapesNext t with
  | true =>
    have no : d.commentAt t (c :: l) 0 = false := by simp [Dialect.commentAt, hp]
    simp [no]
  | false =>
    by_cases he : c = d.escape
    · have no : d.commentAt t (c :: l) 0 = false := Bool.eq_false_iff.2 fun h => (begins h).2 he
      have apart : c ≠ d.quote := fun hq => hd.roles (hq.symm.trans he)
      rw [no, beq_false_of_ne apart]
      simp [he, hd.roles.symm, Scan.plain]
    · rw [beq_false_of_ne he]
      by_cases hq : c = d.quote
      · have no : d.commentAt t (c :: l) 0 = false := Bool.eq_false_iff.2 fun h => (begins h).1 hq
        rw [no]
        simp [hq, hd.roles]
      · have here : d.commentAt t (c :: l) 0 =
            (!d.leavesOpen t && d.lineComment.isPrefixOf (c :: l)) := by
          simp [Dialect.commentAt, hp, Bool.and_comm]
        rw [here, beq_false_of_ne hq]
        simp [he, hq, Scan.plain]

theorem getElem?_classify_behind (t : Text) (l : Line) (k : Nat) :
    (classify d (Scan.behind d t) l)[k]? = l[k]?.map fun c => ⟨c, d.regionAt t l k c⟩ := by
  induction l generalizing t k with
  | nil => rfl
  | cons c l ih =>
    rw [classify, step_behind hd]
    cases h : d.commentAt t (c :: l) 0 with
    | true =>
      have all (a : Char) : d.regionAt t (c :: l) k a = .comment := by
        rw [Dialect.regionAt, commentStart_cons, h, if_pos rfl, if_neg (Nat.not_lt_zero k)]
      simp only [all]
      exact List.getElem?_map
    | false =>
      cases k with
      | zero =>
        simp [Dialect.regionAt, commentStart_cons, h]
      | succ k =>
        have moved (a : Char) : d.regionAt t (c :: l) (k + 1) a = d.regionAt (t ++ [c]) l k a := by
          simp [Dialect.regionAt, commentStart_cons, h]
        simp [ih, moved]

theorem after_behind (t : Text) (l : Line) :
    (Scan.behind d t).after d l = Scan.behind d (t ++ l.take (d.commentStart t l)) := by
  induction l generalizing t with
  | nil => simp [Scan.after]
  | cons c l ih =>
    rw [Scan.after, step_behind hd, commentStart_cons]
    cases d.commentAt t (c :: l) 0 with
    | true => simp
    | false => simp [ih]

/-- Over lines the state stays the one behind all that is no comment. -/
theorem getElem?_classifyLines_behind (t : Text) (ls : List Line) (i : Nat) :
    (classifyLines d (Scan.behind d t) ls)[i]? = ls[i]?.map fun l =>
      (classifyLine d (Scan.behind d (d.uncommented t (ls.take i))) l,
        Scan.behind d (d.uncommented t (ls.take (i + 1)))) := by
  induction ls generalizing t i with
  | nil => rfl
  | cons l ls ih =>
    rw [classifyLines, after_behind hd]
    cases i with
    | zero => simp [Dialect.uncommented]
    | succ i => simp [ih, Dialect.uncommented]

end

/-- Fed with lines in order, the scan lists the characters of each with their byte offsets. With the
comments left out, it tells a comment by the first place where its prefix stands unescaped outside a
string, and the other regions by the run of escape characters before and by the number of unescaped
quotes before; that number is odd when a string is open after the line. -/
theorem classifyLines_by_parity (hv : d.fault? = none) (hq : d.lineComment.head? ≠ some d.quote)
    (he : d.lineComment.head? ≠ some d.escape) (ls : List Line) :
    (classifyLines d {} ls).length = ls.length ∧
    ∀ i l, ls[i]? = some l → ∃ listed s, (classifyLines d {} ls)[i]? = some (listed, s) ∧
      let t := d.uncommented [] (ls.take i)
      listed.length = l.length ∧
      (∀ k c, l[k]? = some c → ∃ r, listed[k]? = some (byteWidth (l.take k), ⟨c, r⟩) ∧
        (r = .comment ↔ ∃ j ≤ k, d.commentAt t l j) ∧
        (r ≠ .comment → r = d.regionBehind (t ++ l.take k) c)) ∧
      s.inQuote = d.leavesOpen (d.uncommented [] (ls.take (i + 1))) := by
  have hd : d.Separated := separated_of_head hv hq he
  have fresh : Scan.behind d [] = {} := rfl
  refine ⟨length_classifyLines d _ _, fun i l hl => ?_⟩
  have entry := getElem?_classifyLines_behind hd [] ls i
  rw [fresh, hl, Option.map_some] at entry
  refine ⟨_, _, entry, ?_⟩
  intro t
  refine ⟨length_classifyLine d _ l, fun k c hc => ⟨d.regionAt t l k c, ?_, ?_, ?_⟩, rfl⟩
  · rw [getElem?_classifyLine, getElem?_classify_behind hd, hc]
    rfl
  · rw [← commentStart_le_iff (List.getElem?_eq_some_iff.1 hc).1, regionAt_eq_comment_iff]
  · exact regionAt_of_ne_comment

/-- Runs of escape characters that go on over the ends of lines, and a string with a prefix of a
comment in it that is closed on the next line. -/
def splitRunLines : List Line :=
  ["x\\\\\\", "\"y\" // \"\\", "\\\"//", "z\" // w"].map String.toList

theorem classifyLines_by_parity_splitRunLines :
    (Dialect.swift.fault? = none ∧ Dialect.swift.lineComment.head? = some '/') ∧
    ∃ listed s, (classifyLines .swift {} splitRunLines)[2]? = some (listed, s) ∧
      listed[0]? = some (0, ⟨'\\', .escaped⟩) ∧ listed[2]? = some (2, ⟨'/', .quoted⟩) ∧
      s.inQuote = true := by
  obtain ⟨-, each⟩ := classifyLines_by_parity (d := .swift) (by decide) (by decide) (by decide)
    splitRunLines
  obtain ⟨listed, s, entry, -, regions, parity⟩ := each 2 ['\\', '"', '/', '/'] (by decide)
  refine ⟨by decide, listed, s, entry, ?_, ?_, by rw [parity]; decide +kernel⟩
  · obtain ⟨r, entry, comment, other⟩ := regions 0 '\\' rfl
    have outside : r ≠ .comment := fun h => absurd (comment.1 h) (by decide +kernel)
    rw [entry, other outside]
    decide +kernel
  · obtain ⟨r, entry, comment, other⟩ := regions 2 '/' rfl
    have outside : r ≠ .comment := fun h => absurd (comment.1 h) (by decide +kernel)
    rw [entry, other outside]
    decide +kernel

end CallGuard
