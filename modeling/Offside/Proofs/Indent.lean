import Mathlib.Data.List.TakeWhile
import Offside.Indentation
import Offside.Proofs.Trim

/-!
# What is learned from a line's indentation

The style and the step are learned once (`learnStyle`, `learnStep`); measuring a
line never touches the step.  `classify_ok` takes an accepted line apart.  A line
is accepted if it begins with characters of one style and as many as fit
(`Measures.classify`); from then on the style is known, and from the first
indented line that finds a block the step is (`see`, `settle`).
-/
namespace Offside

/-- The character a style is written with. -/
def Style.char : Style → Char
  | space => ' '
  | tab => '\t'

/-- The spaces and tabs a line begins with. -/
def leadingRun (text : List Char) : List Char := text.takeWhile fun c => (Style.of? c).isSome

namespace Indentation

@[simp] theorem learnStyle_step (ind : Indentation) (indent : Nat) (used : Option Style) :
    (ind.learnStyle indent used).step = ind.step := by
  unfold learnStyle
  split <;> rfl

theorem learnStep_of_none {ind : Indentation} (h : ind.step = none) (width : Nat) :
    (ind.learnStep width).step = some width := by
  simp [learnStep, h]

theorem learnStep_of_some {ind : Indentation} {s : Nat} (h : ind.step = some s) (width : Nat) :
    ind.learnStep width = ind := by
  simp [learnStep, h]

/-- **An accepted line, unpacked**: it was measured, the style was learned from it, and its indent fits the step if that
was asked for. -/
theorem classify_ok {ind learned : Indentation} {checked : Bool} {text : List Char} {indent : Nat}
    (h : ind.classify checked text = (learned, .ok indent)) :
    ∃ used, ind.measure text = .ok (indent, used) ∧ learned = ind.learnStyle indent used ∧
      (checked = true → learned.checkStep indent = .ok ()) := by
  unfold classify at h
  split at h
  · simp at h
  · rename_i found used hm
    simp only at h
    split at h
    · simp at h
    · rename_i hc
      simp only [Prod.mk.injEq, Except.ok.injEq] at h
      obtain ⟨rfl, rfl⟩ := h
      refine ⟨used, hm, rfl, fun hchecked => ?_⟩
      rw [if_pos hchecked] at hc
      exact hc

/-- Whether a line is accepted or not, the step stays. -/
@[simp] theorem classify_step (ind : Indentation) (checked : Bool) (text : List Char) :
    (ind.classify checked text).1.step = ind.step := by
  unfold classify
  split
  · rfl
  · simp only
    split <;> simp

/-! ## Measuring -/

theorem measureFrom_replicate (ind : Indentation) {c : Char} {style : Style} (hc : Style.of? c = some style)
    (hagree : agrees ind.style style = true) : ∀ (n total : Nat) (used : Option Style), agrees used style = true →
      ind.measureFrom total used (List.replicate n c) =
        .ok (total + n * ind.width style, if n = 0 then used else some style)
  | 0, total, used, _ => by
    rw [List.replicate_zero, measureFrom, Nat.zero_mul, Nat.add_zero]
    rfl
  | n + 1, total, used, hused => by
    have hsome : agrees (some style) style = true := by simp [agrees]
    rw [List.replicate_succ, measureFrom, hc]
    simp only [hagree, hused, Bool.and_self, ↓reduceIte]
    rw [measureFrom_replicate ind hc hagree n _ _ hsome, Nat.succ_mul, Nat.add_assoc, Nat.add_comm (ind.width style)]
    simp

/-! ## Leading runs -/

theorem of?_eq_some_iff {c : Char} {style : Style} : Style.of? c = some style ↔ c = style.char := by
  unfold Style.of?
  cases style with
  | space =>
    rw [Style.char]
    by_cases hs : c = ' '
    · simp [hs]
    · by_cases ht : c = '\t' <;> simp [hs, ht]
  | tab =>
    rw [Style.char]
    by_cases hs : c = ' '
    · simp [hs]
    · by_cases ht : c = '\t' <;> simp [hs, ht]

theorem leadingRun_append {a : List Char} (h : allBlank a = false) (b : List Char) :
    leadingRun (a ++ b) = leadingRun a := by
  have hstop : ¬ ∀ c ∈ a, (Style.of? c).isSome = true := by
    intro hall
    rw [← Bool.not_eq_true] at h
    refine h (allBlank_iff.2 fun c hc => ?_)
    obtain ⟨style, hs⟩ := Option.isSome_iff_exists.1 (hall c hc)
    rw [of?_eq_some_iff.1 hs]
    cases style <;> decide
  rw [leadingRun, List.takeWhile_append, if_neg, leadingRun]
  intro hl
  have hall := List.IsPrefix.eq_of_length (List.takeWhile_prefix _) hl
  exact hstop (List.takeWhile_eq_self_iff.1 hall)

theorem leadingRun_replicate_append (style : Style) (n : Nat) {text : List Char}
    (htext : ∀ c ∈ text.head?, Style.of? c = none) :
    leadingRun (List.replicate n style.char ++ text) = List.replicate n style.char := by
  have hrun : ∀ c ∈ List.replicate n style.char, (Style.of? c).isSome = true := fun c hc => by
    rw [List.eq_of_mem_replicate hc, of?_eq_some_iff.2 rfl]
    rfl
  rw [leadingRun, List.takeWhile_append_of_pos hrun]
  cases text with
  | nil => simp
  | cons c cs => simp [htext c rfl]

theorem replicate_char_inj {style style' : Style} {n n' : Nat}
    (h : List.replicate n style.char = List.replicate n' style'.char) : n = n' ∧ (n ≠ 0 → style = style') := by
  have hn : n = n' := by simpa using congrArg List.length h
  subst hn
  refine ⟨rfl, fun hn => ?_⟩
  obtain ⟨m, rfl⟩ := Nat.exists_eq_succ_of_ne_zero hn
  rw [List.replicate_succ, List.replicate_succ, List.cons.injEq] at h
  have hchar := h.1
  cases style <;> cases style' <;> first | rfl | cases hchar

/-- What a line measures depends on its leading run only. -/
theorem measureFrom_leadingRun (ind : Indentation) : ∀ (text : List Char) (total : Nat) (used : Option Style),
    ind.measureFrom total used (leadingRun text) = ind.measureFrom total used text
  | [], _, _ => rfl
  | c :: cs, total, used => by
    rw [leadingRun, List.takeWhile_cons]
    cases hc : Style.of? c with
    | none => simp [measureFrom, hc]
    | some style =>
      simp only [Option.isSome_some, ↓reduceIte, measureFrom, hc]
      split
      · exact measureFrom_leadingRun ind cs _ _
      · rfl

theorem classify_congr {text text' : List Char} (h : leadingRun text = leadingRun text') (ind : Indentation)
    (checked : Bool) : ind.classify checked text = ind.classify checked text' := by
  have hmeasure : ind.measure text = ind.measure text' := by
    rw [measure, measure, ← measureFrom_leadingRun, h, measureFrom_leadingRun]
  rw [classify, classify, hmeasure]

theorem measureFrom_ok {ind : Indentation} {style : Style} : ∀ {run : List Char} {total width : Nat}
    {used : Option Style},
    (∀ c ∈ run, (Style.of? c).isSome = true) → ind.measureFrom total (some style) run = .ok (width, used) →
      run = List.replicate run.length style.char ∧ width = total + run.length * ind.width style ∧ used = some style
  | [], total, width, used, _, h => by
    simp only [measureFrom, Except.ok.injEq, Prod.mk.injEq] at h
    simp [← h.1, ← h.2]
  | c :: run, total, width, used, hall, h => by
    rw [measureFrom] at h
    cases hc : Style.of? c with
    | none => exact absurd (hall c List.mem_cons_self) (by simp [hc])
    | some found =>
      rw [hc] at h
      simp only at h
      split at h
      · rename_i hagree
        obtain rfl : found = style := by
          simp only [agrees, Bool.and_eq_true, Bool.or_eq_true, beq_iff_eq, reduceCtorEq, Option.some.injEq,
            false_or] at hagree
          exact hagree.2.symm
        obtain ⟨hrun, hwidth, hused⟩ := measureFrom_ok (fun d hd => hall d (List.mem_cons_of_mem c hd)) h
        refine ⟨?_, ?_, hused⟩
        · rw [List.length_cons, List.replicate_succ, ← hrun, of?_eq_some_iff.1 hc]
        · rw [hwidth, List.length_cons, Nat.succ_mul]
          omega
      · cases h

/-- **How a line is indented**: by `n` characters of one style, which goes with what is known of the file. -/
structure Measures (ind : Indentation) (text : List Char) (style : Style) (n : Nat) : Prop where
  run : leadingRun text = List.replicate n style.char
  agrees : n ≠ 0 → agrees ind.style style = true

theorem Measures.measure {ind : Indentation} {text : List Char} {style : Style} {n : Nat}
    (h : ind.Measures text style n) :
    ind.measure text = .ok (n * ind.width style, if n = 0 then none else some style) := by
  rw [Indentation.measure, ← measureFrom_leadingRun, h.run]
  by_cases hn : n = 0
  · subst hn
    simp [measureFrom]
  · rw [measureFrom_replicate ind (of?_eq_some_iff.2 rfl) (h.agrees hn) n 0 none rfl, Nat.zero_add]

theorem exists_measures {ind : Indentation} {text : List Char} {width : Nat} {used : Option Style}
    (h : ind.measure text = .ok (width, used)) : ∃ style n, ind.Measures text style n := by
  have hall : ∀ c ∈ leadingRun text, (Style.of? c).isSome = true :=
    fun c hc => List.mem_takeWhile_imp (p := fun c => (Style.of? c).isSome) hc
  rw [measure, ← measureFrom_leadingRun] at h
  cases hrun : leadingRun text with
  | nil => exact ⟨.space, 0, by rw [hrun]; rfl, fun hn => absurd rfl hn⟩
  | cons c run =>
    rw [hrun] at h hall
    rw [measureFrom] at h
    cases hc : Style.of? c with
    | none => exact absurd (hall c List.mem_cons_self) (by simp [hc])
    | some style =>
      rw [hc] at h
      simp only at h
      split at h
      · rename_i hagree
        rw [Bool.and_eq_true] at hagree
        have := (measureFrom_ok (fun d hd => hall d (List.mem_cons_of_mem c hd)) h).1
        refine ⟨style, run.length + 1, ?_, fun _ => hagree.1⟩
        rw [hrun, List.replicate_succ, ← this, of?_eq_some_iff.1 hc]
      · cases h

theorem style_of_agrees {ind : Indentation} {style : Style} (h : Indentation.agrees ind.style style = true) :
    ind.style = none ∨ ind.style = some style := by
  simpa [Indentation.agrees] using h

theorem width_pos {ind : Indentation} (hpos : ∀ s, ind.step = some s → 0 < s) (style : Style) :
    0 < ind.width style := by
  cases style with
  | space => exact Nat.one_pos
  | tab =>
    rw [width]
    cases hs : ind.step with
    | none => decide
    | some s => exact hpos s hs

theorem width_congr {ind ind' : Indentation} (h : ind'.step = ind.step) (style : Style) :
    ind'.width style = ind.width style := by
  cases style with
  | space => rfl
  | tab => rw [width, width, h]

/-- What has been learned from a line does not change how it is measured. -/
theorem classify_again {ind learned : Indentation} {text : List Char} {found : Nat}
    (h : ind.classify false text = (learned, .ok found)) (checked : Bool) :
    learned.classify checked text = ind.classify checked text := by
  obtain ⟨used, hm, rfl, -⟩ := classify_ok h
  obtain ⟨style, n, hmeasures⟩ := exists_measures hm
  have hfound := hmeasures.measure
  rw [hm, Except.ok.injEq, Prod.mk.injEq] at hfound
  have hlearned : (ind.learnStyle found used).Measures text style n := by
    refine ⟨hmeasures.run, fun hn => ?_⟩
    have hagrees := hmeasures.agrees hn
    rw [hfound.2, if_neg hn, learnStyle]
    split
    · simp [Indentation.agrees]
    · exact hagrees
  have hm' : (ind.learnStyle found used).measure text = .ok (found, used) := by
    rw [hlearned.measure, width_congr (ind.learnStyle_step found used), ← hfound.1, ← hfound.2]
  have hagain : (ind.learnStyle found used).learnStyle found used = ind.learnStyle found used := by
    unfold learnStyle
    by_cases hlearn : (decide (found > 0) && ind.style == none) = true
    · simp only [if_pos hlearn]
      split <;> rfl
    · simp only [if_neg hlearn]
  rw [classify, classify, hm, hm']
  simp only [hagain]

theorem getD_step_pos {ind : Indentation} (hpos : ∀ s, ind.step = some s → 0 < s) {s : Nat} (hs : 0 < s) :
    0 < ind.step.getD s := by
  cases h : ind.step with
  | none => exact hs
  | some t => exact hpos t h

/-! ## What is known after a line -/

/-- What is known after a run of `n` characters of a style. -/
def see (ind : Indentation) (style : Style) (n : Nat) : Indentation :=
  if n = 0 then ind else { ind with style := some style }

/-- What is known once such a line has found its block: the first indented line of all says how wide a step is. -/
def settle (ind : Indentation) (style : Style) (n : Nat) : Indentation :=
  if n = 0 then ind else { style := some style, step := some (ind.step.getD (n * ind.width style)) }

section

variable (ind : Indentation) (style : Style) {n : Nat}

theorem see_of_ne_zero (hn : n ≠ 0) : ind.see style n = { ind with style := some style } := if_neg hn

theorem settle_of_ne_zero (hn : n ≠ 0) :
    ind.settle style n = { style := some style, step := some (ind.step.getD (n * ind.width style)) } := if_neg hn

variable (n)

@[simp] theorem see_step : (ind.see style n).step = ind.step := by
  unfold see
  split <;> rfl

theorem see_settle : (ind.see style n).settle style n = ind.settle style n := by
  by_cases hn : n = 0
  · subst hn
    rfl
  · rw [settle_of_ne_zero _ _ hn, settle_of_ne_zero _ _ hn, see_step, width_congr (ind.see_step style n)]

/-- After a run of one style both the style and the step are known, and reading it again adds nothing. -/
theorem settle_settle : (ind.settle style n).settle style n = ind.settle style n := by
  by_cases hn : n = 0
  · subst hn
    rfl
  · rw [settle_of_ne_zero _ _ hn, settle_of_ne_zero _ _ hn]
    rfl

end

theorem see_of_known {ind : Indentation} {style : Style} {n : Nat} (hk : n ≠ 0 → ind.style ≠ none)
    (ha : n ≠ 0 → agrees ind.style style = true) : ind.see style n = ind := by
  by_cases hn : n = 0
  · subst hn
    rfl
  · rw [see_of_ne_zero _ _ hn, ← (style_of_agrees (ha hn)).resolve_left (hk hn)]

/-- A line as wide as `indent` teaches nothing where the style of such a one is known. -/
theorem see_of_joined {ind : Indentation} {style : Style} {n indent : Nat} (hpos : ∀ s, ind.step = some s → 0 < s)
    (hk : indent ≠ 0 → ind.style ≠ none) (hi : n * ind.width style = indent)
    (ha : n ≠ 0 → agrees ind.style style = true) : ind.see style n = ind := by
  refine see_of_known (fun hn => hk ?_) ha
  rw [← hi]
  exact Nat.ne_of_gt (Nat.mul_pos (Nat.pos_of_ne_zero hn) (width_pos hpos style))

theorem settle_pos {ind : Indentation} (hpos : ∀ s, ind.step = some s → 0 < s) (style : Style) (n : Nat) :
    ∀ s, (ind.settle style n).step = some s → 0 < s := by
  intro s hs
  by_cases hn : n = 0
  · subst hn
    exact hpos s hs
  · rw [settle_of_ne_zero _ _ hn, Option.some.injEq] at hs
    rw [← hs]
    exact getD_step_pos hpos (Nat.mul_pos (Nat.pos_of_ne_zero hn) (width_pos hpos style))

theorem settle_of_known {ind : Indentation} {style : Style} {n : Nat} (hstyle : ind.style ≠ none)
    (hstep : ind.step ≠ none) (ha : n ≠ 0 → agrees ind.style style = true) : ind.settle style n = ind := by
  have hsee := see_of_known (fun _ => hstyle) ha
  obtain ⟨s, hs⟩ := Option.ne_none_iff_exists'.1 hstep
  by_cases hn : n = 0
  · subst hn
    rfl
  · rw [see_of_ne_zero _ _ hn] at hsee
    rw [settle_of_ne_zero _ _ hn, hs, Option.getD_some, ← hs]
    exact hsee

theorem style_known (ind : Indentation) (style : Style) (n : Nat) (hi : n * ind.width style ≠ 0) :
    (ind.settle style n).style ≠ none := by
  rw [settle_of_ne_zero _ _ fun hn => hi (by rw [hn, Nat.zero_mul])]
  simp

theorem settle_known {ind : Indentation} {style : Style} {n : Nat} (hk : ind.step ≠ none → ind.style ≠ none)
    (hs : (ind.settle style n).step ≠ none) : (ind.settle style n).style ≠ none := by
  by_cases hn : n = 0
  · subst hn
    exact hk hs
  · rw [settle_of_ne_zero _ _ hn]
    simp

/-- What is learned later says nothing else. -/
structure Extends (ind known : Indentation) : Prop where
  style : known.style ≠ none → ind.style = known.style
  step : known.step ≠ none → ind.step = known.step

theorem Extends.refl (ind : Indentation) : ind.Extends ind := ⟨fun _ => rfl, fun _ => rfl⟩

theorem Extends.trans {ind later last : Indentation} (h : last.Extends later) (h' : later.Extends ind) :
    last.Extends ind := by
  constructor
  · intro hs
    rw [h.style (by rwa [h'.style hs]), h'.style hs]
  · intro hs
    rw [h.step (by rwa [h'.step hs]), h'.step hs]

theorem extends_settle {ind : Indentation} {style : Style} {n : Nat} (ha : n ≠ 0 → agrees ind.style style = true) :
    (ind.settle style n).Extends ind := by
  by_cases hn : n = 0
  · subst hn
    exact Extends.refl ind
  · rw [settle_of_ne_zero _ _ hn]
    refine ⟨fun hs => ((style_of_agrees (ha hn)).resolve_left hs).symm, fun hs => ?_⟩
    obtain ⟨s, hs⟩ := Option.ne_none_iff_exists'.1 hs
    rw [hs]
    rfl

/-! ## Accepted lines -/

theorem learnStyle_eq_see {ind : Indentation} {style : Style} {n : Nat} (hpos : 0 < ind.width style)
    (hagree : n ≠ 0 → agrees ind.style style = true) :
    ind.learnStyle (n * ind.width style) (if n = 0 then none else some style) = ind.see style n := by
  by_cases hn : n = 0
  · simp [hn, learnStyle, see]
  · have hlt : 0 < n * ind.width style := Nat.mul_pos (Nat.pos_of_ne_zero hn) hpos
    have hagree := hagree hn
    simp only [agrees, Bool.or_eq_true, beq_iff_eq] at hagree
    rcases hagree with h | h
    · simp [learnStyle, see, hn, h, hlt]
    · obtain ⟨known, step⟩ := ind
      cases h
      simp [learnStyle, see, hn]

theorem checkStep_congr {ind ind' : Indentation} (h : ind'.step = ind.step) (indent : Nat) :
    ind'.checkStep indent = ind.checkStep indent := by
  rw [checkStep, checkStep, h]

/-- **A line is accepted if its run is measured and its indent fits**, -/
theorem Measures.classify {ind : Indentation} {text : List Char} {style : Style} {n : Nat}
    (h : ind.Measures text style n) (hpos : ∀ s, ind.step = some s → 0 < s) {checked : Bool}
    (hfit : checked = true → ind.checkStep (n * ind.width style) = .ok ()) :
    ind.classify checked text = (ind.see style n, .ok (n * ind.width style)) := by
  rw [Indentation.classify, h.measure]
  simp only [learnStyle_eq_see (width_pos hpos style) h.agrees]
  cases checked with
  | false => rfl
  | true =>
    rw [checkStep_congr (ind.see_step style n), hfit rfl]
    rfl

/-- and only then. -/
theorem exists_measures_of_classify {ind learned : Indentation} {checked : Bool} {text : List Char} {indent : Nat}
    (hpos : ∀ s, ind.step = some s → 0 < s) (h : ind.classify checked text = (learned, .ok indent)) :
    ∃ style n, ind.Measures text style n ∧ indent = n * ind.width style ∧ learned = ind.see style n := by
  obtain ⟨used, hm, hlearned, -⟩ := classify_ok h
  obtain ⟨style, n, hmeasures⟩ := exists_measures hm
  have := hmeasures.measure
  rw [hm, Except.ok.injEq, Prod.mk.injEq] at this
  obtain ⟨rfl, rfl⟩ := this
  exact ⟨style, n, hmeasures, rfl, by rw [hlearned, learnStyle_eq_see (width_pos hpos style) hmeasures.agrees]⟩

theorem checkStep_mul {ind : Indentation} (hpos : ∀ s, ind.step = some s → 0 < s) {indent : Nat} {d : Nat}
    (h : ∀ s, ind.step = some s → indent = d * s) : ind.checkStep indent = .ok () := by
  unfold checkStep
  split
  · rfl
  · rename_i s hs
    have h0 : s ≠ 0 := Nat.ne_of_gt (hpos s hs)
    rw [h s hs, if_neg h0]
    simp

/-! ## Levels -/

/-- The level of an indent: how many steps it is wide.  While no step is known there is only one level. -/
def level (ind : Indentation) (indent : Nat) : Nat :=
  match ind.step with
  | none => 0
  | some step => indent / step

theorem level_of_none {ind : Indentation} (h : ind.step = none) (indent : Nat) : ind.level indent = 0 := by
  simp [level, h]

theorem level_of_some {ind : Indentation} {s : Nat} (h : ind.step = some s) (indent : Nat) :
    ind.level indent = indent / s := by
  simp [level, h]

@[simp] theorem level_zero (ind : Indentation) : ind.level 0 = 0 := by
  unfold level
  split
  · rfl
  · exact Nat.zero_div _

end Indentation
end Offside
