import Offside.Outline
import Offside.Proofs.Indent

/-!
# The open blocks

The innermost block is indented by as many steps as there are blocks around it,
each of these by one step less, and the last statement of each is the heading of
the block above it (`Frames.Aligned`).  Entering a line keeps this, and the line
ends up in a block of exactly its own indent (`Frames.Aligned.enter`).

The same in levels: a line is taken in (`Frames.Takes`) at a level that the open
blocks admit, if its leading run is so many steps wide.  This is what measuring
and entering decide (`Frames.Aligned.takes`, `Frames.Takes.enter`).
-/
namespace Offside

/-- Each block is indented by one step more than the one below it, the last one not at all. -/
def levelled (step : Nat) : List Frame → Prop
  | [] => True
  | frame :: below => frame.indent = below.length * step ∧ levelled step below

namespace Frames

/-- The open blocks as a list, innermost first. -/
def toList (frames : Frames) : List Frame := frames.top :: frames.below

/-- **The invariant of the open blocks.** -/
structure Aligned (frames : Frames) (ind : Indentation) : Prop where
  /-- A step is never zero. -/
  pos : ∀ s, ind.step = some s → 0 < s
  levels : levelled (ind.step.getD 0) frames.toList
  /-- While no step is known, nothing is open but the file itself. -/
  alone : ind.step = none → frames.below = []
  /-- Every block but the innermost has a heading as its last statement, which owns the block above. -/
  owners : ∀ frame ∈ frames.below, mayNest frame = true

theorem Aligned.base : Frames.base.Aligned {} where
  pos _ h := by cases h
  levels := ⟨rfl, trivial⟩
  alone _ := rfl
  owners _ h := by cases h

/-- The invariant speaks of the step only, so a style may be learned under it. -/
theorem Aligned.congr {frames : Frames} {ind ind' : Indentation} (h : frames.Aligned ind) (hs : ind'.step = ind.step) :
    frames.Aligned ind' where
  pos s h' := h.pos s (hs ▸ h')
  levels := by rw [hs]; exact h.levels
  alone h' := h.alone (hs ▸ h')
  owners := h.owners

theorem Aligned.classified {frames : Frames} {ind learned : Indentation} {checked : Bool} {text : List Char}
    {result : Except Cause Nat} (h : frames.Aligned ind) (hc : ind.classify checked text = (learned, result)) :
    frames.Aligned learned := by
  have hstep := ind.classify_step checked text
  rw [hc] at hstep
  exact h.congr hstep

/-! ## Closing -/

/-- Closing is dropping: to an indent of `n` steps, down to the block that has `n` others around it. -/
theorem closeFrom_toList {step : Nat} (hs : 0 < step) (n : Nat) : ∀ (top : Frame) (below : List Frame),
    levelled step (top :: below) →
      (closeFrom (n * step) top below).toList = (top :: below).drop (below.length - n)
  | top, [], _ => by simp [closeFrom, toList]
  | top, next :: below, h => by
    have htop : top.indent = (below.length + 1) * step := h.1
    rw [closeFrom, htop]
    by_cases hn : n < below.length + 1
    · rw [if_pos (Nat.mul_lt_mul_of_pos_right hn hs), closeFrom_toList hs n next below h.2, List.length_cons,
        Nat.succ_sub (Nat.le_of_lt_succ hn), List.drop_succ_cons]
    · rw [if_neg (fun hlt => hn (Nat.lt_of_mul_lt_mul_right hlt)), List.length_cons,
        Nat.sub_eq_zero_of_le (Nat.le_of_not_lt hn), List.drop_zero, toList]

theorem close_toList {frames : Frames} {step : Nat} (hs : 0 < step) (h : levelled step frames.toList) (n : Nat) :
    (frames.close (n * step)).toList = frames.toList.drop (frames.depth - n) :=
  closeFrom_toList hs n frames.top frames.below h

theorem close_of_below_nil {frames : Frames} (h : frames.below = []) (indent : Nat) : frames.close indent = frames := by
  obtain ⟨top, below⟩ := frames
  obtain rfl : below = [] := h
  rfl

theorem closeFrom_suffix (indent : Nat) : ∀ (top : Frame) (below : List Frame),
    (closeFrom indent top below).toList <:+ top :: below
  | top, [] => List.suffix_rfl
  | top, next :: below => by
    rw [closeFrom]
    split
    · exact (closeFrom_suffix indent next below).trans (List.suffix_cons top (next :: below))
    · exact List.suffix_rfl

theorem close_suffix (frames : Frames) (indent : Nat) : (frames.close indent).toList <:+ frames.toList :=
  closeFrom_suffix indent frames.top frames.below

theorem levelled_of_suffix {step : Nat} {fs : List Frame} : ∀ {gs : List Frame}, levelled step gs → fs <:+ gs →
    levelled step fs
  | [], _, h => by rw [List.suffix_nil.1 h]; trivial
  | g :: gs, hl, h => by
    rcases List.suffix_cons_iff.1 h with rfl | h
    · exact hl
    · exact levelled_of_suffix hl.2 h

/-- Closed blocks are gone for good: if any was closed, fewer are left. -/
theorem close_eq_or_depth_lt (frames : Frames) (indent : Nat) :
    frames.close indent = frames ∨ (frames.close indent).depth < frames.depth := by
  rcases List.suffix_cons_iff.1 (close_suffix frames indent) with h | h
  · left
    simp only [toList, List.cons.injEq] at h
    exact Frames.mk.injEq .. ▸ h
  · right
    exact h.length_le

theorem Aligned.close {frames : Frames} {ind : Indentation} (h : frames.Aligned ind) (indent : Nat) :
    (frames.close indent).Aligned ind where
  pos := h.pos
  levels := levelled_of_suffix h.levels (close_suffix frames indent)
  alone hn := by rw [close_of_below_nil (h.alone hn)]; exact h.alone hn
  owners frame hf := by
    rcases List.suffix_cons_iff.1 (close_suffix frames indent) with hs | hs
    · simp only [toList, List.cons.injEq] at hs
      exact h.owners frame (hs.2 ▸ hf)
    · exact h.owners frame (hs.subset (List.mem_cons_of_mem _ hf))

/-! ## Entering -/

/-- **A line that found its block, unpacked**: it went on with the block it closed down to, or it opened the block of
that one's last heading, one step deeper. -/
theorem enter_ok {frames entered : Frames} {ind learned : Indentation} {indent : Nat}
    (h : frames.enter ind indent = (entered, learned, .ok ())) :
    (indent = (frames.close indent).top.indent ∧ entered = frames.close indent ∧ learned = ind) ∨
    ((frames.close indent).top.indent < indent ∧ mayNest (frames.close indent).top = true ∧
      learned = ind.learnStep (indent - (frames.close indent).top.indent) ∧
      indent = (frames.close indent).top.indent + learned.step.getD 0 ∧
      entered = { top := { indent := indent }, below := (frames.close indent).toList }) := by
  simp only [enter] at h
  split at h
  · rename_i hlt
    split at h
    · rename_i hn
      split at h
      · rename_i hj
        simp only [Prod.mk.injEq, and_true] at h
        obtain ⟨rfl, rfl⟩ := h
        exact Or.inr ⟨hlt, hn, rfl, hj, rfl⟩
      · simp at h
    · simp at h
  · split at h
    · rename_i he
      simp only [Prod.mk.injEq, and_true] at h
      exact Or.inl ⟨he, h.1.symm, h.2.symm⟩
    · simp at h

/-- **Entering a line keeps the invariant**, and leaves a block of the line's own indent on top. -/
theorem Aligned.enter {frames entered : Frames} {ind learned : Indentation} {indent : Nat} (ha : frames.Aligned ind)
    (h : frames.enter ind indent = (entered, learned, .ok ())) :
    entered.Aligned learned ∧ entered.top.indent = indent := by
  have hk := ha.close indent
  have hcases := enter_ok h
  clear h
  generalize frames.close indent = kept at hk hcases
  rcases hcases with ⟨hi, rfl, rfl⟩ | ⟨hlt, hn, rfl, hj, rfl⟩
  · exact ⟨hk, hi.symm⟩
  · refine ⟨?_, rfl⟩
    have howners : ∀ frame ∈ kept.toList, mayNest frame = true := fun frame hf => by
      rcases List.mem_cons.1 hf with rfl | hf
      · exact hn
      · exact hk.owners frame hf
    have hlev := hk.levels
    cases hs : ind.step with
    | none =>
      -- the first jump of all: it starts from the file itself, which is not indented
      have hb := hk.alone hs
      have h0 : kept.top.indent = 0 := by
        have := hlev.1
        rw [hb] at this
        simpa using this
      have hl := Indentation.learnStep_of_none hs (indent - kept.top.indent)
      refine ⟨fun s h' => ?_, ?_, fun h' => ?_, howners⟩
      · rw [hl] at h'
        cases h'
        omega
      · rw [hl]
        simp [toList, levelled, hb, h0]
      · rw [hl] at h'
        cases h'
    | some s =>
      rw [Indentation.learnStep_of_some hs] at hj ⊢
      rw [hs, Option.getD_some] at hj hlev
      refine ⟨hk.pos, ?_, fun h' => ?_, howners⟩
      · rw [hs, Option.getD_some]
        refine ⟨?_, hlev⟩
        show indent = (kept.below.length + 1) * s
        rw [hj, hlev.1, Nat.succ_mul]
      · rw [hs] at h'
        cases h'

theorem close_of_le {frames : Frames} {indent : Nat} (h : frames.top.indent ≤ indent) :
    frames.close indent = frames := by
  obtain ⟨top, below⟩ := frames
  cases below with
  | nil => rfl
  | cons next below => exact if_neg (Nat.not_lt.2 h)

theorem Aligned.close_within {frames : Frames} {ind : Indentation} (h : frames.Aligned ind) {s n : Nat}
    (hs : ind.step = some s) (hn : n ≤ frames.depth) :
    (frames.close (n * s)).toList = frames.toList.drop (frames.depth - n) ∧ (frames.close (n * s)).depth = n ∧
      (frames.close (n * s)).top.indent = n * s := by
  have hlevels := h.levels
  rw [hs, Option.getD_some] at hlevels
  have hclose := close_toList (h.pos s hs) hlevels n
  have hdepth : (frames.close (n * s)).depth = n := by
    have := congrArg List.length hclose
    simp only [toList, List.length_cons, List.length_drop] at this
    unfold depth at this hn ⊢
    omega
  refine ⟨hclose, hdepth, ?_⟩
  have htop := (h.close (n * s)).levels.1
  rw [hs, Option.getD_some] at htop
  rw [htop]
  exact congrArg (· * s) hdepth

/-- **A line at most as deep as the innermost block finds its block**: the one with as many others around it. -/
theorem Aligned.enter_within {frames : Frames} {ind : Indentation} (h : frames.Aligned ind) {s n : Nat}
    (hs : ind.step = some s) (hn : n ≤ frames.depth) :
    ∃ entered, frames.enter ind (n * s) = (entered, ind, .ok ()) ∧ entered.depth = n ∧
      entered.toList = frames.toList.drop (frames.depth - n) := by
  obtain ⟨hclose, hdepth, htop⟩ := h.close_within hs hn
  refine ⟨frames.close (n * s), ?_, hdepth, hclose⟩
  simp [Frames.enter, htop]

/-- **A line one step deeper opens the block of the last heading.**  The first such line of all says how wide a step
is. -/
theorem Aligned.enter_below {frames : Frames} {ind : Indentation} (h : frames.Aligned ind) {s : Nat}
    (hs : ind.step = none ∨ ind.step = some s) (hpos : 0 < s) (hn : mayNest frames.top = true) :
    frames.enter ind ((frames.depth + 1) * s) =
      ({ top := { indent := (frames.depth + 1) * s }, below := frames.toList }, { ind with step := some s },
        .ok ()) := by
  have htop : frames.top.indent = frames.depth * s := by
    rcases hs with hs | hs
    · have := h.levels.1
      rw [this, depth, h.alone hs, List.length_nil, Nat.zero_mul, Nat.zero_mul]
    · have := h.levels.1
      rwa [hs, Option.getD_some] at this
  have hlt : frames.top.indent < (frames.depth + 1) * s := by
    rw [htop, Nat.succ_mul]
    omega
  have hjump : (frames.depth + 1) * s - frames.top.indent = s := by
    rw [htop, Nat.succ_mul]
    omega
  have hlearn : ind.learnStep s = { ind with step := some s } := by
    rcases hs with hs | hs
    · simp [Indentation.learnStep, hs]
    · rw [Indentation.learnStep_of_some hs, ← hs]
  have hind : (frames.depth + 1) * s = frames.top.indent + s := by
    rw [htop, Nat.succ_mul]
  simp only [Frames.enter, close_of_le (Nat.le_of_lt hlt), hjump, hlearn, Option.getD_some]
  rw [if_pos hlt, if_pos hn, if_pos hind]
  rfl

/-! ## The levels a line may have -/

/-- The levels at which the next line may stand: those of the open blocks, and the one below the last heading. -/
def Admits (frames : Frames) (d : Nat) : Prop := d ≤ frames.depth ∨ (d = frames.depth + 1 ∧ mayNest frames.top = true)

theorem Admits.of_le {frames : Frames} {d e : Nat} (h : frames.Admits d) (he : e ≤ d) : frames.Admits e := by
  rcases h with hd | ⟨hd, hn⟩
  · exact Or.inl (Nat.le_trans he hd)
  · rcases Nat.lt_or_eq_of_le he with hlt | rfl
    · exact Or.inl (by omega)
    · exact Or.inr ⟨hd, hn⟩

/-- While no step is known, only the first level below the file itself is admitted. -/
theorem Aligned.admits_le_one {frames : Frames} {ind : Indentation} (h : frames.Aligned ind) (hs : ind.step = none)
    {d : Nat} (hd : frames.Admits d) : d ≤ 1 := by
  have hdepth : frames.depth = 0 := by rw [depth, h.alone hs, List.length_nil]
  rcases hd with hle | ⟨heq, -⟩ <;> omega

theorem admits_of_enter {frames entered : Frames} {ind learned : Indentation} {indent : Nat}
    (h : frames.enter ind indent = (entered, learned, .ok ())) : frames.Admits entered.depth := by
  have hclose := frames.close_eq_or_depth_lt indent
  rcases enter_ok h with ⟨-, rfl, -⟩ | ⟨-, hn, -, -, rfl⟩
  · rcases hclose with he | hlt
    · exact Or.inl (by rw [he])
    · exact Or.inl (Nat.le_of_lt hlt)
  · rcases hclose with he | hlt
    · rw [he] at hn
      exact Or.inr ⟨by rw [he]; rfl, hn⟩
    · exact Or.inl hlt

/-- **A line finds its block at every level that is admitted**, if it is indented by as many steps. -/
theorem Aligned.enter_admits {frames : Frames} {ind : Indentation} (h : frames.Aligned ind) {s d : Nat}
    (hs : ind.step = none ∨ ind.step = some s) (hpos : 0 < s) (hd : frames.Admits d) :
    ∃ entered, frames.enter ind (d * s) = (entered, if d = 0 then ind else { ind with step := some s }, .ok ()) ∧
      entered.depth = d := by
  rcases hd with hd | ⟨rfl, hn⟩
  · rcases hs with hs | hs
    · -- nothing is open but the file itself
      have hb := h.alone hs
      obtain rfl : d = 0 := by
        rw [depth, hb] at hd
        exact Nat.le_zero.1 hd
      have htop : frames.top.indent = 0 := by
        have := h.levels.1
        rwa [hb, List.length_nil, Nat.zero_mul] at this
      refine ⟨frames, ?_, by rw [depth, hb]; rfl⟩
      rw [Nat.zero_mul, if_pos rfl]
      simp [Frames.enter, close_of_below_nil hb, htop]
    · obtain ⟨entered, he, hdepth, -⟩ := h.enter_within hs hd
      refine ⟨entered, ?_, hdepth⟩
      rw [he]
      split
      · rfl
      · rw [← hs]
  · exact ⟨_, by rw [h.enter_below hs hpos hn, if_neg (Nat.succ_ne_zero _)], rfl⟩

/-! ## Taking a line in -/

/-- **A line is taken in at level `d`**: its leading run is `n` characters of a style, the level is admitted, and the
run is as wide as so many steps. -/
structure Takes (frames : Frames) (ind : Indentation) (text : List Char) (style : Style) (n d : Nat) : Prop where
  measures : ind.Measures text style n
  admits : frames.Admits d
  flat : n = 0 → d = 0
  whole : n * ind.width style = d * (ind.settle style n).step.getD 0

/-- A line that found its block settles what is known. -/
theorem Aligned.learned_eq {frames entered : Frames} {ind learned : Indentation} {style : Style} {n : Nat}
    (h : frames.Aligned ind) (he : frames.enter (ind.see style n) (n * ind.width style) = (entered, learned, .ok ())) :
    learned = ind.settle style n := by
  by_cases hn : n = 0
  · subst hn
    rw [Nat.zero_mul] at he
    rcases enter_ok he with ⟨-, -, rfl⟩ | ⟨hlt, -⟩
    · rfl
    · exact absurd hlt (Nat.not_lt_zero _)
  · have hstep := ind.see_step style n
    rw [Indentation.see_of_ne_zero _ _ hn] at he hstep
    rw [Indentation.settle_of_ne_zero _ _ hn]
    cases hs : ind.step with
    | some s =>
      rcases enter_ok he with ⟨-, -, rfl⟩ | ⟨-, -, rfl, -⟩
      · rw [hs]
        rfl
      · rw [Indentation.learnStep_of_some (hstep.trans hs), hs]
        rfl
    | none =>
      -- nothing is open but the file itself, and the line is deeper than that
      have hb := h.alone hs
      have htop : (frames.close (n * ind.width style)).top.indent = 0 := by
        have := h.levels.1
        rwa [hb, List.length_nil, Nat.zero_mul, ← close_of_below_nil hb (n * ind.width style)] at this
      have hne := Nat.mul_pos (Nat.pos_of_ne_zero hn) (Indentation.width_pos h.pos style)
      rcases enter_ok he with ⟨hi, -⟩ | ⟨-, -, rfl, -⟩
      · exact absurd (hi.trans htop) (Nat.ne_of_gt hne)
      · simp only [htop, Nat.sub_zero, Indentation.learnStep, hs, Option.getD_none]

/-- **A line that is measured and finds its block is taken in.** -/
theorem Aligned.takes {frames entered : Frames} {ind measured learned : Indentation} {text : List Char} {indent : Nat}
    (h : frames.Aligned ind) (hc : ind.classify true text = (measured, .ok indent))
    (he : frames.enter measured indent = (entered, learned, .ok ())) :
    ∃ style n, frames.Takes ind text style n entered.depth ∧ indent = n * ind.width style ∧
      learned = ind.settle style n := by
  obtain ⟨style, n, hm, rfl, rfl⟩ := Indentation.exists_measures_of_classify h.pos hc
  obtain ⟨hlearned, htop⟩ := (h.congr (ind.see_step style n)).enter he
  have hlevel : n * ind.width style = entered.depth * learned.step.getD 0 := htop ▸ hlearned.levels.1
  have hflat : n = 0 → entered.depth = 0 := fun hn => by
    cases hs : learned.step with
    | none => rw [depth, hlearned.alone hs, List.length_nil]
    | some s =>
      rw [hs, Option.getD_some, hn, Nat.zero_mul] at hlevel
      exact (Nat.mul_eq_zero.1 hlevel.symm).resolve_right (Nat.ne_of_gt (hlearned.pos s hs))
  have hsettle := h.learned_eq he
  exact ⟨style, n, ⟨hm, admits_of_enter he, hflat, hsettle ▸ hlevel⟩, rfl, hsettle⟩

section

variable {frames : Frames} {ind : Indentation} {text : List Char} {style : Style} {n d : Nat}

theorem Takes.ne_zero (h : frames.Takes ind text style n d) (hpos : ∀ s, ind.step = some s → 0 < s) (hn : n ≠ 0) :
    d ≠ 0 := by
  rintro rfl
  have hwhole := h.whole
  rw [Nat.zero_mul] at hwhole
  exact absurd hwhole (Nat.ne_of_gt (Nat.mul_pos (Nat.pos_of_ne_zero hn) (Indentation.width_pos hpos style)))

theorem Takes.whole_of_ne_zero (h : frames.Takes ind text style n d) (hn : n ≠ 0) :
    n * ind.width style = d * ind.step.getD (n * ind.width style) := by
  have hwhole := h.whole
  rwa [Indentation.settle_of_ne_zero _ _ hn, Option.getD_some] at hwhole

/-- **A line that is taken in is accepted and finds its block.** -/
theorem Takes.enter (h : frames.Takes ind text style n d) (ha : frames.Aligned ind) :
    ∃ measured entered, ind.classify true text = (measured, .ok (n * ind.width style)) ∧
      frames.enter measured (n * ind.width style) = (entered, ind.settle style n, .ok ()) ∧ entered.depth = d := by
  have hstep := ind.see_step style n
  -- the step, or what it will be
  have hknown : ∀ s, ind.step = none ∨ ind.step = some (ind.step.getD s) := fun s => by
    cases ind.step with
    | none => exact Or.inl rfl
    | some t => exact Or.inr rfl
  by_cases hn : n = 0
  · obtain rfl := h.flat hn
    obtain ⟨entered, he, hdepth⟩ := ha.enter_admits (hknown 1) (Indentation.getD_step_pos ha.pos Nat.one_pos) h.admits
    have hfit := @Indentation.checkStep_mul ind ha.pos (n * ind.width style) 0 fun s _ => by
      rw [hn, Nat.zero_mul, Nat.zero_mul]
    refine ⟨_, entered, h.measures.classify ha.pos fun _ => hfit, ?_, hdepth⟩
    subst hn
    rw [Nat.zero_mul, if_pos rfl] at he
    rw [Nat.zero_mul]
    exact he
  · have hwhole := h.whole_of_ne_zero hn
    have hpos := Indentation.getD_step_pos ha.pos
      (Nat.mul_pos (Nat.pos_of_ne_zero hn) (Indentation.width_pos ha.pos style))
    obtain ⟨entered, he, hdepth⟩ := (ha.congr hstep).enter_admits (by rw [hstep]; exact hknown _) hpos h.admits
    have hfit : ind.checkStep (n * ind.width style) = .ok () := by
      refine @Indentation.checkStep_mul ind ha.pos _ d fun s hs => ?_
      rw [hs, Option.getD_some] at hwhole
      exact hwhole
    refine ⟨_, entered, h.measures.classify ha.pos fun _ => hfit, ?_, hdepth⟩
    rw [hwhole, he, if_neg (h.ne_zero ha.pos hn), Indentation.settle_of_ne_zero _ _ hn,
      Indentation.see_of_ne_zero _ _ hn]

theorem Takes.of_leadingRun (h : frames.Takes ind text style n d) {text' : List Char}
    (hrun : leadingRun text' = leadingRun text) : frames.Takes ind text' style n d :=
  ⟨⟨hrun.trans h.measures.run, h.measures.agrees⟩, h.admits, h.flat, h.whole⟩

theorem takes_zero (frames : Frames) (ind : Indentation) (h : leadingRun text = []) (style : Style) :
    frames.Takes ind text style 0 0 :=
  ⟨⟨h, fun hn => absurd rfl hn⟩, Or.inl (Nat.zero_le _), fun _ => rfl, by rw [Nat.zero_mul, Nat.zero_mul]⟩

theorem Takes.level_unique {frames' : Frames} {e : Nat} (h : frames.Takes ind text style n d)
    (h' : frames'.Takes ind text style n e) (hpos : ∀ s, ind.step = some s → 0 < s) : d = e := by
  by_cases hn : n = 0
  · rw [h.flat hn, h'.flat hn]
  · have hstep := Indentation.getD_step_pos hpos
      (Nat.mul_pos (Nat.pos_of_ne_zero hn) (Indentation.width_pos hpos style))
    exact Nat.eq_of_mul_eq_mul_right hstep ((h.whole_of_ne_zero hn).symm.trans (h'.whole_of_ne_zero hn))

theorem Takes.step_ne_none (h : frames.Takes ind text style n d) (hd : d ≠ 0) : (ind.settle style n).step ≠ none := by
  rw [Indentation.settle_of_ne_zero _ _ fun hn => hd (h.flat hn)]
  simp

end

/-- The level of the innermost block's indent is the number of blocks around it. -/
theorem Aligned.level {frames : Frames} {ind : Indentation} (h : frames.Aligned ind) :
    ind.level frames.top.indent = frames.depth := by
  have htop := h.levels.1
  cases hs : ind.step with
  | none => rw [Indentation.level_of_none hs, depth, h.alone hs, List.length_nil]
  | some s =>
    rw [hs, Option.getD_some] at htop
    rw [Indentation.level_of_some hs, htop]
    exact Nat.mul_div_cancel _ (h.pos s hs)

theorem Aligned.record {frames : Frames} {ind : Indentation} (h : frames.Aligned ind) (s : Statement) :
    (frames.record s).Aligned ind where
  pos := h.pos
  levels := h.levels
  alone := h.alone
  owners := h.owners

end Frames
end Offside
