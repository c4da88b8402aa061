import CallGuard.Proofs.Prefixes
set_option autoImplicit false

/-!
# The nesting of guards

Open markers read as opening brackets and close markers as closing ones. An output nests the guards
of its text as the text does; the lines of a block lie one level deeper.
-/
namespace CallGuard

variable {d : Dialect} {ls ks : List Line} {bs : List Block} {i n s e : Nat}

/-- The open markers less the close markers. -/
def guardDepth (d : Dialect) (ls : List Line) : Int :=
  (ls.countP d.opensGuard : Int) - (ls.countP d.closesGuard : Int)

/-- No close marker comes before its open marker, and each open marker has a close marker. -/
structure WellNested (d : Dialect) (ls : List Line) : Prop where
  above : ∀ i, 0 ≤ guardDepth d (ls.take i)
  total : guardDepth d ls = 0

theorem guardDepth_append (ls ks : List Line) :
    guardDepth d (ls ++ ks) = guardDepth d ls + guardDepth d ks := by
  simp only [guardDepth, List.countP_append, Int.natCast_add]
  omega

theorem guardDepth_opens {l : Line} (ho : d.opensGuard l) (hc : d.closesGuard l = false) :
    guardDepth d (l :: ls) = guardDepth d ls + 1 := by
  rw [guardDepth, List.countP_cons_of_pos ho, List.countP_cons_of_neg (by simp [hc]), guardDepth]
  omega

theorem guardDepth_closes {l : Line} (ho : d.opensGuard l = false) (hc : d.closesGuard l) :
    guardDepth d (l :: ls) = guardDepth d ls - 1 := by
  rw [guardDepth, List.countP_cons_of_neg (by simp [ho]), List.countP_cons_of_pos hc, guardDepth]
  omega

theorem guardDepth_congr (h : ls.map d.look = ks.map d.look) :
    guardDepth d ls = guardDepth d ks := by
  have opens (ms : List Line) : ms.countP d.opensGuard = (ms.map d.look).countP (·.1) := by
    rw [List.countP_map]
    rfl
  have closes (ms : List Line) : ms.countP d.closesGuard = (ms.map d.look).countP (·.2.1) := by
    rw [List.countP_map]
    rfl
  rw [guardDepth, guardDepth, opens, opens, closes, closes, h]

section
variable (hd : d.Unbroken) (hx : d.Exclusive) (hs : s ≤ e) (he : e < ls.length)
include hd hx hs he

theorem guardDepth_enclose_inside (h1 : s ≤ i) (h2 : i ≤ e + 1) :
    guardDepth d ((enclose d s e ls).take (i + 1)) = guardDepth d (ls.take i) + 1 := by
  have opens := opensGuard_openingText d (lineAt ls s)
  rw [take_enclose_inside hd hs he h1 h2, guardDepth_append, guardDepth_opens opens (hx _ opens),
    guardDepth_congr (map_look_between_breakAt s e s i ls), take_eq_append_between ls h1,
    guardDepth_append]
  omega

theorem guardDepth_enclose_below (h : e < i) :
    guardDepth d ((enclose d s e ls).take (i + 2)) = guardDepth d (ls.take i) := by
  have opens := opensGuard_openingText d (lineAt ls s)
  have closes := closesGuard_closingText d (lineAt ls s) (lineAt ls e)
  rw [take_enclose_below hd hs he h, guardDepth_append, guardDepth_opens opens (hx _ opens),
    guardDepth_append, guardDepth_closes (hx.closes closes) closes,
    guardDepth_congr (map_look_between_breakAt s e s (e + 1) ls),
    take_eq_append_between ls (by omega : e + 1 ≤ i),
    take_eq_append_between ls (by omega : s ≤ e + 1), guardDepth_append, guardDepth_append]
  omega

/-- One span enclosed: its lines lie one level deeper, the others as deep as before. -/
theorem guardDepth_enclose (i : Nat) :
    guardDepth d ((enclose d s e ls).take (shiftLine 1 1 s e i)) =
      guardDepth d (ls.take i) + if s ≤ i ∧ i ≤ e then 1 else 0 := by
  by_cases above : i < s
  · rw [shiftLine_above above, enclose_take hs he (by omega), if_neg (by omega), Int.add_zero]
  · by_cases inside : i ≤ e
    · rw [shiftLine_inside (by omega) inside,
        guardDepth_enclose_inside hd hx hs he (by omega) (by omega), if_pos (by omega)]
    · rw [shiftLine_below (by omega) (by omega), guardDepth_enclose_below hd hx hs he (by omega),
        if_neg (by omega), Int.add_zero]

theorem guardDepth_enclose_eq : guardDepth d (enclose d s e ls) = guardDepth d ls := by
  have len := hd.length_enclose hs he
  have whole := guardDepth_enclose_below hd hx hs he he
  rwa [← len, List.take_length, List.take_length] at whole

theorem wellNested_enclose (h : WellNested d ls) : WellNested d (enclose d s e ls) := by
  refine ⟨fun j => ?_, ?_⟩
  · by_cases above : j ≤ s
    · rw [enclose_take hs he above]
      exact h.above j
    · obtain ⟨i, rfl⟩ := Nat.exists_eq_add_of_le' (show 1 ≤ j by omega)
      by_cases inside : i ≤ e + 1
      · rw [guardDepth_enclose_inside hd hx hs he (by omega) inside]
        have := h.above i
        omega
      · obtain ⟨k, rfl⟩ := Nat.exists_eq_add_of_le' (show 1 ≤ i by omega)
        rw [guardDepth_enclose_below hd hx hs he (by omega)]
        exact h.above k
  · rw [guardDepth_enclose_eq hd hx hs he]
    exact h.total

end

/-! ## All blocks -/

/-- All blocks enclosed: the lines of a block lie one level deeper. -/
theorem guardDepth_encloseAll (hd : d.Unbroken) (hx : d.Exclusive) (h : InOrder ls.length n bs)
    (i : Nat) : guardDepth d ((encloseAll d ls bs).take (movedLine bs i)) =
      guardDepth d (ls.take i) + if ∃ b ∈ bs, b.start ≤ i ∧ i ≤ b.last then 1 else 0 := by
  induction bs generalizing n with
  | nil => simp [movedLine, encloseAll]
  | cons b bs ih =>
    have later := h.2.2.2.ge
    rw [encloseAll, movedLine_cons h, guardDepth_enclose hd hx h.2.1 (last_lt_encloseAll h),
      ih h.2.2.2, Int.add_assoc]
    congr 1
    simp only [List.exists_mem_cons_iff, movedLine_mem_iff h]
    by_cases here : b.start ≤ i ∧ i ≤ b.last
    · have alone : ¬ ∃ c ∈ bs, c.start ≤ i ∧ i ≤ c.last := by
        rintro ⟨c, hc, h1, -⟩
        have := later c hc
        omega
      rw [if_neg alone, if_pos here, if_pos (Or.inl here)]
      rfl
    · simp only [here, false_or, if_false, Int.add_zero]

theorem guardDepth_encloseAll_eq (hd : d.Unbroken) (hx : d.Exclusive)
    (h : InOrder ls.length n bs) : guardDepth d (encloseAll d ls bs) = guardDepth d ls := by
  induction bs generalizing n with
  | nil => rfl
  | cons b bs ih =>
    rw [encloseAll, guardDepth_enclose_eq hd hx h.2.1 (last_lt_encloseAll h), ih h.2.2.2]

theorem wellNested_encloseAll (hd : d.Unbroken) (hx : d.Exclusive) (h : InOrder ls.length n bs)
    (hw : WellNested d ls) : WellNested d (encloseAll d ls bs) := by
  induction bs generalizing n with
  | nil => exact hw
  | cons b bs ih => exact wellNested_enclose hd hx h.2.1 (last_lt_encloseAll h) (ih h.2.2.2)

/-- Each line of a text stands in the output as deep as in the text, and one level deeper when it
lies in a block. So the output has as many open markers without a close marker as the text, and it
is well nested when the text is. -/
theorem guardText_keeps_nesting (hv : d.fault? = none) (ho : '\n' ∉ d.openMarker)
    (hc : '\n' ∉ d.closeMarker) (hx : d.Exclusive) (t : Text) :
    let ls := splitLines t
    let g := guardText d t
    let out := splitLines g.output
    (∀ i < ls.length, Preserved (lineAt ls i) (lineAt out (movedLine g.blocks i)) ∧
      guardDepth d (out.take (movedLine g.blocks i)) =
        guardDepth d (ls.take i) + if ∃ b ∈ g.blocks, b.start ≤ i ∧ i ≤ b.last then 1 else 0) ∧
    guardDepth d out = guardDepth d ls ∧
    (WellNested d ls → WellNested d out) := by
  intro ls g out
  have hd := unbroken_of_valid hv ho hc
  have order : InOrder ls.length 0 g.blocks := blocks_inOrder d ls
  have lines : out = encloseAll d ls g.blocks := splitLines_guardCalls_output (lined_splitLines t)
  rw [lines]
  exact ⟨fun i _ => ⟨lineAt_encloseAll hd order i, guardDepth_encloseAll hd hx order i⟩,
    guardDepth_encloseAll_eq hd hx order, wellNested_encloseAll hd hx order⟩

/-- The old guard ends inside the statement, and a declaration hides its beginning. -/
def crossedText : Text := "#if DEBUG\nfunc f()\nprint(\n#endif\n1)\n".toList

theorem guardText_keeps_nesting_crossedText :
    (guardText .swift crossedText).blocks.map (fun b => (b.start, b.last)) = [(2, 4)] ∧
    guardDepth .swift ((splitLines crossedText).take 4) = 0 ∧
    guardDepth .swift ((splitLines (guardText .swift crossedText).output).take 5) = 1 ∧
    WellNested .swift (splitLines (guardText .swift crossedText).output) := by
  obtain ⟨lines, -, nested⟩ := guardText_keeps_nesting (d := .swift) (by decide) (by decide)
    (by decide) Dialect.swift_neutral.exclusive crossedText
  obtain ⟨-, deeper⟩ := lines 4 (by decide +kernel)
  have moved : movedLine (guardText .swift crossedText).blocks 4 = 5 := by decide +kernel
  have inside : ∃ b ∈ (guardText .swift crossedText).blocks, b.start ≤ 4 ∧ 4 ≤ b.last := by
    decide +kernel
  have level : guardDepth .swift ((splitLines crossedText).take 4) = 0 := by decide +kernel
  rw [moved, if_pos inside, level] at deeper
  refine ⟨by decide +kernel, level, deeper, nested ⟨fun i => ?_, by decide +kernel⟩⟩
  by_cases short : i < 5
  · have each : ∀ i < 5, 0 ≤ guardDepth .swift ((splitLines crossedText).take i) := by
      decide +kernel
    exact each i short
  · have len : (splitLines crossedText).length = 5 := by decide +kernel
    have total : guardDepth .swift (splitLines crossedText) = 0 := by decide +kernel
    rw [List.take_of_length_le (by omega)]
    exact Int.le_of_eq total.symm

end CallGuard
