import CallGuard.Proofs.Plain
set_option autoImplicit false

/-!
# Ordinary dialects

In an ordinary dialect the characters that delimit strings and nesting are kept apart from the call
tokens and the comment prefix. Lines that are made of these characters then do what they look like.
-/
namespace CallGuard

structure Dialect.Ordinary (d : Dialect) : Prop extends d.Plain where
  commentRoles : ∀ c ∈ d.lineComment, c ∉ d.roles
  tokenRoles : ∀ token ∈ d.callTokens, ∀ c ∈ token, c ∉ d.roles

/-- Some call token can stand in code. -/
def Dialect.Callable (d : Dialect) : Prop := ∃ token ∈ d.callTokens, ¬ d.lineComment <:+: token

variable {d : Dialect} {s u : Scan} {r : Region} {q : Bool} {n m : Nat} {c : Char} {t tk : Text}
  {l : Line} {ls as bs : List Line}

/-! ## Delimiters -/

theorem carry_step (h : s.step d c t = some (r, u)) : carry d s n ((c :: t) :: ls) =
    if (⟨c, r⟩ : Glyph).opens d then carry d u (n + 1) (t :: ls)
    else if (⟨c, r⟩ : Glyph).closes d then
      if n = 1 then none else carry d u (n - 1) (t :: ls)
    else carry d u n (t :: ls) := by
  simp only [carry, classify, Scan.after, h, openDepth]
  split_ifs <;> rfl

theorem openDepth_eq_none_iff : openDepth d n (classify d s l) = none ↔ carry d s n [l] = none := by
  rw [carry]
  cases openDepth d n (classify d s l) <;> simp [carry]

theorem Glyph.opens_quoted (c : Char) : (⟨c, .quoted⟩ : Glyph).opens d = false := rfl

theorem Glyph.closes_quoted (c : Char) : (⟨c, .quoted⟩ : Glyph).closes d = false := rfl

section
variable (hd : d.Ordinary)
include hd

theorem no_comment_at (hc : c ∈ d.roles) (t : Text) : d.lineComment.isPrefixOf (c :: t) = false := by
  obtain ⟨a, as, ha⟩ := List.exists_cons_of_ne_nil hd.facts.comment
  have ne : a ≠ c := by
    rintro rfl
    exact hd.commentRoles a (by rw [ha]; exact List.mem_cons_self) hc
  simp [ha, List.isPrefixOf, ne]

theorem step_quote (t : Text) : Scan.step d ⟨q, false⟩ d.quote t = some (.quoted, ⟨!q, false⟩) := by
  have distinct := hd.facts.roles
  simp only [Dialect.roles, List.nodup_cons, List.mem_cons, not_or] at distinct
  simp [Scan.step, distinct]

theorem step_delim (hc : c = d.openDelim ∨ c = d.closeDelim) (t : Text) :
    Scan.step d ⟨q, false⟩ c t = some (Scan.plain ⟨q, false⟩, ⟨q, false⟩) := by
  have distinct := hd.facts.roles
  simp only [Dialect.roles, List.nodup_cons, List.mem_cons, not_or] at distinct
  have role : c ∈ d.roles := by
    rcases hc with rfl | rfl <;> simp [Dialect.roles]
  have notEscape : c ≠ d.escape := by
    rcases hc with rfl | rfl
    · exact Ne.symm distinct.2.1.1
    · exact Ne.symm distinct.2.1.2.1
  have notQuote : c ≠ d.quote := by
    rcases hc with rfl | rfl
    · exact Ne.symm distinct.1.2.1
    · exact Ne.symm distinct.1.2.2.1
  simp [Scan.step, notEscape, notQuote, no_comment_at hd role]

theorem carry_quote : carry d ⟨q, false⟩ n ((d.quote :: t) :: ls) =
    carry d ⟨!q, false⟩ n (t :: ls) := by
  rw [carry_step (step_quote hd t), Glyph.opens_quoted, Glyph.closes_quoted]
  rfl

theorem carry_open : carry d ⟨q, false⟩ n ((d.openDelim :: t) :: ls) =
    carry d ⟨q, false⟩ (if q then n else n + 1) (t :: ls) := by
  rw [carry_step (step_delim hd (Or.inl rfl) t)]
  cases q <;> simp [Scan.plain, Glyph.opens, Glyph.closes, Glyph.isCode]

theorem carry_close_quoted : carry d ⟨true, false⟩ n ((d.closeDelim :: t) :: ls) =
    carry d ⟨true, false⟩ n (t :: ls) := by
  rw [carry_step (step_delim hd (Or.inr rfl) t)]
  rfl

theorem carry_close : carry d ⟨false, false⟩ n ((d.closeDelim :: t) :: ls) =
    if n = 1 then none else carry d ⟨false, false⟩ (n - 1) (t :: ls) := by
  have distinct := hd.facts.roles
  simp only [Dialect.roles, List.nodup_cons, List.mem_cons, List.not_mem_nil, or_false] at distinct
  have ne : d.closeDelim ≠ d.openDelim := Ne.symm distinct.2.2.1
  rw [carry_step (step_delim hd (Or.inr rfl) t)]
  simp [Scan.plain, Glyph.opens, Glyph.closes, Glyph.isCode, ne]

theorem carry_break : carry d ⟨q, false⟩ n (['\n'] :: ls) = carry d ⟨q, false⟩ n ls := by
  have blank : Blank ['\n'] := by
    intro c hc
    rw [List.mem_singleton.1 hc]
    decide
  obtain ⟨inQuote, pending⟩ := inQuote_after_inert (hd.inert blank) ⟨q, false⟩
  rw [carry_cons (openDepth_inert (hd.inert blank) (map_char_classify d _ _) n),
    Scan.eq_of rfl (pending rfl) inQuote]

theorem carry_closes {k : Nat} (hn : 1 ≤ n) (hk : n ≤ k) :
    carry d ⟨false, false⟩ n ((List.replicate k d.closeDelim ++ t) :: ls) = none := by
  induction k generalizing n with
  | zero => omega
  | succ k ih =>
    rw [List.replicate_succ, List.cons_append, carry_close hd]
    split
    · rfl
    · exact ih (by omega) (by omega)

theorem carry_closes_quoted (k : Nat) :
    carry d ⟨true, false⟩ n ((List.replicate k d.closeDelim ++ t) :: ls) =
      carry d ⟨true, false⟩ n (t :: ls) := by
  induction k with
  | zero => rfl
  | succ k ih => rw [List.replicate_succ, List.cons_append, carry_close_quoted hd, ih]

end

/-! ## Calls -/

section
variable (hd : d.Ordinary)
include hd

theorem no_comment_in (ht : ¬ d.lineComment <:+: tk) (hc : c ∈ d.roles) (t : Text) :
    d.lineComment.isPrefixOf (tk ++ c :: t) = false := by
  apply Bool.eq_false_iff.2
  intro h
  have comment := List.isPrefixOf_iff_prefix.1 h
  rcases List.prefix_or_prefix_of_prefix comment (List.prefix_append tk (c :: t)) with h | ⟨w, hw⟩
  · exact ht h.isInfix
  · rw [← hw] at comment
    cases w with
    | nil =>
      have same : tk = d.lineComment := by rw [← hw, List.append_nil]
      exact ht (same ▸ List.infix_rfl)
    | cons a w =>
      obtain ⟨rfl, -⟩ := List.cons_prefix_cons.1 ((List.prefix_append_right_inj tk).1 comment)
      exact hd.commentRoles a (by rw [← hw]; simp) hc

theorem classify_token (hm : tk ∈ d.callTokens) (ht : ¬ d.lineComment <:+: tk) (t : Text) :
    classify d ⟨q, false⟩ (tk ++ d.openDelim :: t) =
      tk.map (fun c => ⟨c, Scan.plain ⟨q, false⟩⟩) ++
        ⟨d.openDelim, Scan.plain ⟨q, false⟩⟩ :: classify d ⟨q, false⟩ t ∧
      Scan.after d ⟨q, false⟩ (tk ++ d.openDelim :: t) = Scan.after d ⟨q, false⟩ t := by
  have flat := classify_flat_append (q := q) (t := d.openDelim :: t) (hd.tokenRoles tk hm) fun w hw _ =>
    no_comment_in hd (fun h => ht (h.trans hw.isInfix)) (by simp [Dialect.roles]) t
  have opens := step_delim (q := q) hd (Or.inl rfl) t
  have head : classify d ⟨q, false⟩ (d.openDelim :: t) =
      ⟨d.openDelim, Scan.plain ⟨q, false⟩⟩ :: classify d ⟨q, false⟩ t := by
    rw [classify, opens]
  have same : Scan.after d ⟨q, false⟩ (d.openDelim :: t) = Scan.after d ⟨q, false⟩ t := by
    rw [Scan.after, opens]
  rw [head, same] at flat
  exact flat

theorem carry_token (hm : tk ∈ d.callTokens) (ht : ¬ d.lineComment <:+: tk) :
    carry d ⟨q, false⟩ n ((tk ++ d.openDelim :: t) :: ls) =
      carry d ⟨q, false⟩ (if q then n else n + 1) (t :: ls) := by
  obtain ⟨h1, h2⟩ := classify_token (q := q) hd hm ht t
  have skips : openDepth d n (tk.map fun c => ⟨c, Scan.plain ⟨q, false⟩⟩) = some n :=
    openDepth_of_notMem (by simpa using hd.tokenRoles tk hm) n
  rw [← carry_open hd, carry, carry, h1, h2, openDepth_append, skips, classify, Scan.after,
    step_delim hd (Or.inl rfl)]
  rfl

theorem callAt?_token (hm : tk ∈ d.callTokens) (ht : ¬ d.lineComment <:+: tk) :
    callAt? d (tk ++ d.openDelim :: t) = some 0 := by
  obtain ⟨a, w, rfl⟩ := List.exists_cons_of_ne_nil (hd.breakFree.token_ne_nil tk hm)
  have word := isWordChar_of_mem (hd.facts.tokens _ hm) List.mem_cons_self
  have visible := hd.visible d.openDelim (by simp [Dialect.roles])
  have space : d.openDelim ≠ ' ' ∧ d.openDelim ≠ '\t' := by
    constructor <;> intro e <;> rw [e] at visible <;> exact absurd visible (by decide)
  have next (gs : List Glyph) : opensNext d (⟨d.openDelim, .code⟩ :: gs) = true := by
    simp [opensNext, skipBlanks, Glyph.isCode, space]
  have head (gs : List Glyph) : isCallHead d none ⟨a, .code⟩
      (w.map (fun c => ⟨c, .code⟩) ++ ⟨d.openDelim, .code⟩ :: gs) = true := by
    have token : ((a :: w).isPrefixOf ((⟨a, .code⟩ :: (w.map (fun c => (⟨c, .code⟩ : Glyph)) ++
        ⟨d.openDelim, .code⟩ :: gs)).map Glyph.char)) = true := by
      rw [List.isPrefixOf_iff_prefix]
      exact ⟨d.openDelim :: gs.map Glyph.char, by simp [Function.comp_def]⟩
    have rest : ((⟨a, .code⟩ :: (w.map (fun c => (⟨c, .code⟩ : Glyph)) ++
        ⟨d.openDelim, .code⟩ :: gs)).drop (a :: w).length) = ⟨d.openDelim, .code⟩ :: gs := by
      simp
    rw [isCallHead, Bool.and_eq_true]
    refine ⟨by simp [word], List.any_eq_true.2 ⟨a :: w, hm, ?_⟩⟩
    rw [token, rest, next]
    rfl
  have glyphs := (classify_token (q := false) hd hm ht t).1
  rw [callAt?]
  change callFrom d none (classify d ⟨false, false⟩ _) = _
  rw [glyphs, List.map_cons, List.cons_append, callFrom]
  change (if isCallHead d none ⟨a, .code⟩ (w.map (fun c => ⟨c, .code⟩) ++
    ⟨d.openDelim, .code⟩ :: classify d ⟨false, false⟩ t) = true then some 0 else _) = _
  rw [head, if_pos rfl]

theorem callDepth?_token (hm : tk ∈ d.callTokens) (ht : ¬ d.lineComment <:+: tk) :
    callDepth? d (tk ++ d.openDelim :: t) = openDepth d 1 (classify d {} t) := by
  have call := callAt?_token (t := t) hd hm ht
  have glyphs := (classify_token (q := false) (t := t) hd hm ht).1
  have roles := hd.tokenRoles tk hm
  obtain ⟨a, w, rfl⟩ := List.exists_cons_of_ne_nil (hd.breakFree.token_ne_nil tk hm)
  have first := notDelim_of_notMem (g := ⟨a, .code⟩) (roles a List.mem_cons_self)
  have skips : openDepth d 0 (w.map fun c => ⟨c, Scan.plain ⟨false, false⟩⟩) = some 0 :=
    openDepth_of_notMem (by simpa using fun c hc => roles c (List.mem_cons_of_mem a hc)) 0
  have opens : (⟨d.openDelim, .code⟩ : Glyph).opens d := by simp [Glyph.opens, Glyph.isCode]
  have depth : depthAfter d 0 [⟨a, .code⟩] = 0 := by
    simp [depthAfter, first]
  rw [callDepth?, call]
  change openDepth d (depthAfter d 0 ((classify d ⟨false, false⟩ _).take 1))
    ((classify d ⟨false, false⟩ _).drop 1) = _
  rw [glyphs, List.map_cons, List.cons_append, List.take_succ_cons, List.take_zero,
    List.drop_succ_cons, List.drop_zero]
  change openDepth d (depthAfter d 0 [⟨a, .code⟩]) _ = _
  rw [depth, openDepth_append, skips, Option.bind_some, openDepth, Scan.plain, if_neg Bool.false_ne_true,
    if_pos opens]

/-- A statement is searched for its end as if its first line began behind the head of the call. -/
theorem closing?_token (hm : tk ∈ d.callTokens) (ht : ¬ d.lineComment <:+: tk) (ls : List Line) :
    closing? d ((tk ++ d.openDelim :: t) :: ls) = closingFrom d {} 1 (t :: ls) := by
  have after : Scan.after d {} (tk ++ d.openDelim :: t) = Scan.after d {} t :=
    (classify_token hd hm ht t).2
  have depth := callDepth?_token (t := t) hd hm ht
  cases h : openDepth d 1 (classify d {} t) with
  | none => rw [closing?_of_none (depth.trans h), closingFrom_of_none h]
  | some n => rw [closing?_of_some (depth.trans h), closingFrom_cons h, after]

end

theorem callFrom_comment (before : Option Char) (l : Line) :
    callFrom d before (l.map fun c => ⟨c, .comment⟩) = none := by
  induction l generalizing before with
  | nil => rfl
  | cons c l ih =>
    rw [List.map_cons, callFrom, ih]
    rfl

theorem Scan.eq_of_step_code (h : s.step d c t = some (.code, u)) : s = {} := by
  rw [Scan.step] at h
  split at h
  · cases h
  · rename_i np
    have plain : s.plain = .code := by
      split at h
      · exact congrArg Prod.fst (Option.some.inj h)
      · split at h
        · cases h
        · split at h
          · cases h
          · exact congrArg Prod.fst (Option.some.inj h)
    refine Scan.eq_of rfl (Bool.eq_false_iff.2 np) (Bool.eq_false_iff.2 fun quoted => ?_)
    rw [Scan.plain, if_pos quoted] at plain
    cases plain

theorem exists_token {before : Option Char} {k : Nat} (h : callFrom d before (classify d s l) = some k) :
    ∃ token ∈ d.callTokens, ∃ x : Text, x <:+ l ∧ token <+: x ∧
      opensNext d ((classify d {} x).drop token.length) := by
  induction l generalizing s before k with
  | nil => cases h
  | cons c cs ih =>
    cases hs : s.step d c cs with
    | none =>
      rw [classify, hs] at h
      dsimp only at h
      rw [callFrom_comment] at h
      cases h
    | some x =>
      have whole : classify d s (c :: cs) = ⟨c, x.1⟩ :: classify d x.2 cs := by
        rw [classify, hs]
      rw [whole, callFrom] at h
      split at h
      · rename_i head
        rw [isCallHead, ← whole, map_char_classify] at head
        simp only [Bool.and_eq_true, beq_iff_eq, List.any_eq_true] at head
        obtain ⟨⟨⟨code, -⟩, -⟩, token, hm, prefixed, next⟩ := head
        have state : s = {} := Scan.eq_of_step_code (hs.trans (by rw [← code]))
        rw [state] at next
        exact ⟨token, hm, c :: cs, List.suffix_rfl, List.isPrefixOf_iff_prefix.1 prefixed, next⟩
      · obtain ⟨j, hj, -⟩ := Option.map_eq_some_iff.1 h
        obtain ⟨token, hm, x, hx, rest⟩ := ih hj
        exact ⟨token, hm, x, hx.trans (List.suffix_cons c cs), rest⟩

theorem comment_of_drop (hd : d.Ordinary) {w : Text} (hw : ∀ c ∈ w, c ∉ d.roles) :
    ∀ g ∈ (classify d {} (w ++ (d.lineComment ++ t))).drop w.length, g.region = .comment := by
  have comment (x : Text) : ∀ g ∈ x.map fun c => (⟨c, .comment⟩ : Glyph), g.region = .comment := by
    intro g hg
    obtain ⟨c, -, rfl⟩ := List.mem_map.1 hg
    rfl
  induction w with
  | nil =>
    obtain ⟨a, as, ha⟩ := List.exists_cons_of_ne_nil hd.facts.comment
    have roles := hd.commentRoles a (by rw [ha]; exact List.mem_cons_self)
    simp only [Dialect.roles, List.mem_cons, not_or] at roles
    have begins : Scan.step d {} a (as ++ t) = none := by
      have : d.lineComment.isPrefixOf (a :: (as ++ t)) = true := by
        rw [List.isPrefixOf_iff_prefix, ← List.cons_append, ← ha]
        exact List.prefix_append d.lineComment t
      simp [Scan.step, roles, this]
    rw [List.nil_append, ha, List.cons_append, classify, begins]
    exact comment _
  | cons c w ih =>
    have roles := hw c List.mem_cons_self
    simp only [Dialect.roles, List.mem_cons, not_or] at roles
    rw [List.cons_append, classify]
    split
    · rename_i r u hs
      have stays : u = {} := by
        simp only [Scan.step, roles, if_false, Bool.false_eq_true] at hs
        split at hs
        · cases hs
        · cases hs
          rfl
      rw [stays, List.length_cons, List.drop_succ_cons]
      exact ih fun a ha => hw a (List.mem_cons_of_mem c ha)
    · exact fun g hg => comment _ g (List.mem_of_mem_drop hg)

theorem Dialect.Ordinary.hasCall_eq_false (hd : d.Ordinary) (h : ¬ d.Callable) (l : Line) :
    hasCall d l = false := by
  cases hc : hasCall d l with
  | false => rfl
  | true =>
    obtain ⟨k, hk⟩ := Option.isSome_iff_exists.1 hc
    obtain ⟨token, hm, x, -, ⟨y, rfl⟩, next⟩ := exists_token hk
    have inside : d.lineComment <:+: token := by
      by_contra hn
      exact h ⟨token, hm, hn⟩
    obtain ⟨a, b, rfl⟩ := inside
    have flat : ∀ c ∈ a, c ∉ d.roles := fun c ha =>
      hd.tokenRoles _ hm c (List.mem_append_left b (List.mem_append_left d.lineComment ha))
    have comment := comment_of_drop hd (t := b ++ y) flat
    rw [opensNext] at next
    cases hh : (skipBlanks ((classify d {} (a ++ d.lineComment ++ b ++ y)).drop
        (a ++ d.lineComment ++ b).length)).head? with
    | none =>
      rw [hh] at next
      cases next
    | some g =>
      have mem := mem_of_mem_skipBlanks (List.mem_of_head? hh)
      simp only [List.append_assoc, List.length_append] at mem
      rw [← List.drop_drop] at mem
      rw [hh, Option.any_some, Glyph.isCode, comment g (List.mem_of_mem_drop mem)] at next
      cases next

theorem Dialect.Ordinary.noCall_of_roles (hd : d.Ordinary)
    (hl : ∀ c ∈ l, c ∈ d.roles ∨ c = '\n') : hasCall d l = false := by
  cases hc : hasCall d l with
  | false => rfl
  | true =>
    obtain ⟨k, hk⟩ := Option.isSome_iff_exists.1 hc
    obtain ⟨token, hm, x, hx, prefixed, -⟩ := exists_token hk
    obtain ⟨a, as, ha⟩ := List.exists_cons_of_ne_nil (hd.breakFree.token_ne_nil token hm)
    have first : a ∈ token := by
      rw [ha]
      exact List.mem_cons_self
    rcases hl a (hx.subset (prefixed.subset first)) with role | rfl
    · exact absurd role (hd.tokenRoles token hm a first)
    · exact absurd (isWordChar_of_mem (hd.facts.tokens token hm) first) (by decide)

end CallGuard
