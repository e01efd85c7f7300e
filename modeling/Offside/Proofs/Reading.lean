import Mathlib.Data.List.Forall2
import Offside.Proofs.Blocks
import Offside.Proofs.Continuation
import Offside.Proofs.Preorder

/-!
# What the reader builds

One accepted step of the reader, taken apart (`Reader.step_ok`) and put together
again (`Reader.Sound.step_of_takes`), and an accepted run as a relation, step by
step (`Reader.Runs`).  What every step preserves holds after a run; the first of
these: the forest that is built, seen in preorder, is the list of the logical
lines, each at the level its indent says (`readLines_preorder`).
-/
namespace Offside

/-! ## Statements -/

theorem Statement.readMain_ne_none {main : List Char} {comment : Option Comment} (h : main ≠ [] ∨ comment ≠ none) :
    Statement.readMain main comment ≠ .ok none := by
  have hsome : ∀ x : Except Cause Statement, x.map some ≠ .ok none := by
    intro x
    cases x <;> simp [Except.map]
  unfold Statement.readMain
  split
  · cases comment with
    | none => simp at h
    | some c => simp
  · exact hsome _
  · exact hsome _
  · exact hsome _

theorem Statement.read_formatted (content : List Char) : Statement.read false content =
    Statement.readMain (trim (Comment.extract content).1) (Comment.extract content).2 := rfl

theorem Statement.read_compact (content : List Char) :
    Statement.read true content = Statement.readMain (trim content) none := rfl

/-- **A line that is not blank says something**: there is text before its comment, or there is a comment. -/
theorem Statement.read_ne_none {compact : Bool} {content : List Char} (h : allBlank content = false) :
    Statement.read compact content ≠ .ok none := by
  have hne : trim content ≠ [] := fun hn => by rw [trim_eq_nil_iff.1 hn] at h; cases h
  cases compact with
  | true =>
    rw [Statement.read_compact]
    exact Statement.readMain_ne_none (Or.inl hne)
  | false =>
    rw [Statement.read_formatted]
    refine Statement.readMain_ne_none ?_
    unfold Comment.extract
    split
    · left
      rwa [trim_trim]
    · right
      simp

/-! ## One step of the reader -/

namespace Reader

/-- **An accepted step, unpacked**: the line was measured and entered, the lines that go on with it were joined, and the
whole was read as a statement. -/
theorem step_ok {compact : Bool} {r after : Reader} {line : Line} {following : List Line} {skip : Nat}
    (h : r.step compact line following = (after, .ok skip)) :
    ∃ measured indent entered learned ind joined s,
      r.indentation.classify true line.text = (measured, .ok indent) ∧
      r.frames.enter measured indent = (entered, learned, .ok ()) ∧
      joinLines learned indent (trim line.text) following = (ind, .ok joined) ∧
      Statement.read compact joined.text = .ok s ∧ skip = joined.lines ∧
      after = Reader.take { r with
        indentation := ind, frames := entered,
        logical := r.logical ++ [{ text := joined.text, offset := line.offset, indent := indent }] } s := by
  simp only [step] at h
  split at h
  · simp at h
  · rename_i measured indent hc
    split at h
    · simp at h
    · rename_i entered learned he
      split at h
      · simp at h
      · rename_i ind joined hj
        split at h
        · simp at h
        · rename_i s hs
          simp only [Prod.mk.injEq, Except.ok.injEq] at h
          exact ⟨measured, indent, entered, learned, ind, joined, s, hc, he, hj, hs, h.2.symm, h.1.symm⟩

theorem step_of_parts {compact : Bool} {r : Reader} {line : Line} {following : List Line}
    {measured learned ind : Indentation} {indent : Nat} {entered : Frames} {joined : Joined} {s : Option Statement}
    (hc : r.indentation.classify true line.text = (measured, .ok indent))
    (he : r.frames.enter measured indent = (entered, learned, .ok ()))
    (hj : joinLines learned indent (trim line.text) following = (ind, .ok joined))
    (hs : Statement.read compact joined.text = .ok s) :
    r.step compact line following = (Reader.take { r with
      indentation := ind, frames := entered,
      logical := r.logical ++ [{ text := joined.text, offset := line.offset, indent := indent }] } s,
      .ok joined.lines) := by
  simp only [step, hc, he, hj, hs]

/-- **A run that is accepted**, line by line; the first `skip` lines have been joined to an earlier one. -/
inductive Runs (compact : Bool) : Nat → Reader → List Line → Reader → Prop
  | done {skip : Nat} {r : Reader} : Runs compact skip r [] r
  | pass {skip : Nat} {r after : Reader} {line : Line} {lines : List Line} (h : Runs compact skip r lines after) :
      Runs compact (skip + 1) r (line :: lines) after
  | blank {r after : Reader} {line : Line} {lines : List Line} (hb : allBlank line.text = true)
      (h : Runs compact 0 r lines after) : Runs compact 0 r (line :: lines) after
  | step {skip : Nat} {r next after : Reader} {line : Line} {lines : List Line} (hb : allBlank line.text = false)
      (hs : r.step compact line lines = (next, .ok skip)) (h : Runs compact skip next lines after) :
      Runs compact 0 r (line :: lines) after

theorem Runs.readFrom_eq {compact : Bool} {skip : Nat} {r after : Reader} {lines : List Line}
    (h : Runs compact skip r lines after) : readFrom compact skip r lines = (after, .ok ()) := by
  induction h with
  | done => rfl
  | pass _ ih => exact ih
  | blank hb _ ih => rw [readFrom, if_pos hb, ih]
  | step hb hs _ ih =>
    rw [readFrom, if_neg (by simp [hb]), hs]
    exact ih

theorem runs_of_readFrom {compact : Bool} : ∀ {lines : List Line} {skip : Nat} {r after : Reader},
    readFrom compact skip r lines = (after, .ok ()) → Runs compact skip r lines after
  | [], skip, r, after, h => by
    rw [readFrom, Prod.mk.injEq] at h
    rw [← h.1]
    exact .done
  | _ :: lines, skip + 1, r, after, h => .pass (@runs_of_readFrom _ lines skip r after h)
  | line :: lines, 0, r, after, h => by
    rw [readFrom] at h
    split at h
    · rename_i hb
      exact .blank hb (runs_of_readFrom h)
    · rename_i hb
      split at h
      · simp at h
      · rename_i next skip hs
        exact .step (by simpa using hb) hs (runs_of_readFrom h)

/-- **What every accepted step preserves holds after a run.** -/
theorem Runs.preserves {compact : Bool} {P : Reader → Prop} {skip : Nat} {r after : Reader} {lines : List Line}
    (h : Runs compact skip r lines after)
    (hstep : ∀ (r next : Reader) (line : Line) (following : List Line) (skip : Nat), line ∈ lines → P r →
      allBlank line.text = false → r.step compact line following = (next, .ok skip) → P next)
    (hr : P r) : P after := by
  induction h with
  | done => exact hr
  | pass _ ih => exact ih (fun r next l fs skip hl => hstep r next l fs skip (List.mem_cons_of_mem _ hl)) hr
  | blank _ _ ih => exact ih (fun r next l fs skip hl => hstep r next l fs skip (List.mem_cons_of_mem _ hl)) hr
  | @step skip r next after line lines hb hs _ ih =>
    exact ih (fun r next l fs skip hl => hstep r next l fs skip (List.mem_cons_of_mem _ hl))
      (hstep r next line lines skip List.mem_cons_self hr hb hs)

/-- A blank line may be passed over as well as read. -/
theorem Runs.of_blank {compact : Bool} {r after : Reader} {line : Line} (hb : allBlank line.text = true) :
    ∀ {lines : List Line} {k : Nat}, lines[k]? = some line →
      (Runs compact k r lines after ↔ Runs compact (k + 1) r lines after)
  | [], _, h => by simp at h
  | _ :: lines, 0, h => by
    cases h
    constructor
    · intro hrun
      cases hrun with
      | blank _ hrun => exact .pass hrun
      | step hvisible _ _ =>
        rw [hb] at hvisible
        cases hvisible
    · intro hrun
      cases hrun with
      | pass hrun => exact .blank hb hrun
  | _ :: lines, k + 1, h => by
    have ih := @Runs.of_blank compact r after line hb lines k h
    constructor
    · intro hrun
      cases hrun with
      | pass hrun => exact .pass (ih.1 hrun)
    · intro hrun
      cases hrun with
      | pass hrun => exact .pass (ih.2 hrun)

end Reader

theorem readLines_iff {compact : Bool} {lines : List Line} {r : Reader} :
    readLines compact lines = (r, .ok ()) ↔ Reader.Runs compact 0 {} lines r :=
  ⟨Reader.runs_of_readFrom, Reader.Runs.readFrom_eq⟩

/-! ## The tree that is built -/

/-- What a logical line contributes to the tree: the statement it reads as, at the level of its indent.  The indent is
a whole number of steps, or there is none. -/
structure Contributes (compact : Bool) (ind : Indentation) (l : LogicalLine) (p : Nat × Statement) : Prop where
  reads : Statement.read compact l.text = .ok (some p.2)
  level : p.1 = ind.level l.indent
  whole : l.indent = p.1 * ind.step.getD 0

/-- Lines read while no step was known are not indented, so learning the step moves none of them. -/
theorem Contributes.learn {compact : Bool} {ind ind' : Indentation} {l : LogicalLine} {p : Nat × Statement}
    (h : Contributes compact ind l p) (hs : ind.step = none ∨ ind'.step = ind.step) : Contributes compact ind' l p := by
  obtain ⟨hread, hlevel, hwhole⟩ := h
  rcases hs with hn | he
  · rw [Indentation.level_of_none hn] at hlevel
    rw [hlevel, Nat.zero_mul] at hwhole
    exact ⟨hread, by rw [hlevel, hwhole, Indentation.level_zero], by rw [hlevel, hwhole, Nat.zero_mul]⟩
  · exact ⟨hread, by rw [hlevel, Indentation.level, Indentation.level, he], by rw [he]; exact hwhole⟩

/-- **The invariant of the reader.**  The open blocks lie along the rightmost path of the tree, so the next statement
can be added at their depth, and below the last statement of the innermost one if that is a heading. -/
structure Reader.Sound (compact : Bool) (r : Reader) : Prop where
  aligned : r.frames.Aligned r.indentation
  depth_le : r.frames.depth ≤ r.sheet.reach
  depth_lt : Frames.mayNest r.frames.top = true → r.frames.depth < r.sheet.reach
  contributes : List.Forall₂ (Contributes compact r.indentation) r.logical r.sheet.preorder

theorem Reader.Sound.initial (compact : Bool) : Reader.Sound compact {} where
  aligned := Frames.Aligned.base
  depth_le := Nat.le_refl 0
  depth_lt h := by cases h
  contributes := List.Forall₂.nil

/-- Entering a line keeps the open blocks on the rightmost path. -/
theorem Reader.Sound.depth_enter {compact : Bool} {r : Reader} (hr : r.Sound compact) {ind learned : Indentation}
    {entered : Frames} {indent : Nat} (h : r.frames.enter ind indent = (entered, learned, .ok ())) :
    entered.depth ≤ r.sheet.reach := by
  have hclose : (r.frames.close indent).depth ≤ r.sheet.reach ∧
      (Frames.mayNest (r.frames.close indent).top = true → (r.frames.close indent).depth < r.sheet.reach) := by
    rcases r.frames.close_eq_or_depth_lt indent with he | hlt
    · rw [he]
      exact ⟨hr.depth_le, hr.depth_lt⟩
    · have := hr.depth_le
      exact ⟨by omega, fun _ => by omega⟩
  rcases Frames.enter_ok h with ⟨-, rfl, -⟩ | ⟨-, hn, -, -, rfl⟩
  · exact hclose.1
  · exact hclose.2 hn

theorem Reader.Sound.step {compact : Bool} {r after : Reader} {line : Line} {following : List Line} {skip : Nat}
    (hr : r.Sound compact) (hb : allBlank line.text = false)
    (h : r.step compact line following = (after, .ok skip)) : after.Sound compact := by
  obtain ⟨measured, indent, entered, learned, ind, joined, s, hc, he, hj, hs, -, rfl⟩ := Reader.step_ok h
  have hmeasured : measured.step = r.indentation.step := by
    have := r.indentation.classify_step true line.text
    rwa [hc] at this
  obtain ⟨hlearned, htop⟩ := (hr.aligned.congr hmeasured).enter he
  have hjoins := (joinLines_iff hlearned.pos).1 hj
  have hind := hjoins.step_eq
  have haligned : entered.Aligned ind := hlearned.congr hind
  have hdepth : entered.depth ≤ r.sheet.reach := hr.depth_enter he
  -- the line is not blank, so there is a statement, and it is appended to the view
  have hblank : allBlank joined.text = false := hjoins.not_blank (by rw [allBlank_trim, hb])
  cases s with
  | none => exact absurd hs (Statement.read_ne_none hblank)
  | some s =>
    have hstep : r.indentation.step = none ∨ ind.step = r.indentation.step := by
      rw [hind, ← hmeasured]
      rcases Frames.enter_ok he with ⟨-, -, rfl⟩ | ⟨-, -, rfl, -, -⟩
      · exact Or.inr rfl
      · cases hm : measured.step with
        | none => exact Or.inl rfl
        | some _ => exact Or.inr (by rw [Indentation.learnStep_of_some hm, hm])
    have hreach := Forest.reach_add s r.sheet entered.depth hdepth
    refine ⟨haligned.record s, ?_, ?_, ?_⟩
    · show entered.depth ≤ (r.sheet.add entered.depth s).reach
      rw [hreach]
      split <;> omega
    · intro hn
      have hheading : s.isHeading = true := by simpa [Reader.take, Frames.mayNest, Frames.record] using hn
      show entered.depth < (r.sheet.add entered.depth s).reach
      rw [hreach, if_pos hheading]
      exact Nat.lt_succ_self _
    · show List.Forall₂ (Contributes compact ind) (r.logical ++ [_]) (r.sheet.add entered.depth s).preorder
      rw [Forest.preorder_add r.sheet entered.depth s hdepth]
      refine List.rel_append (hr.contributes.imp fun l p hl => hl.learn hstep) (.cons ⟨hs, ?_, ?_⟩ .nil)
      · rw [← haligned.level, htop]
      · show indent = entered.depth * ind.step.getD 0
        rw [← htop]
        exact haligned.levels.1

/-- What a step adds: one statement, at a level, which is where the reader stands afterwards. -/
structure Reader.Grows (r after : Reader) (d : Nat) (s : Statement) : Prop where
  depth : after.frames.depth = d
  nests : Frames.mayNest after.frames.top = s.isHeading
  view : after.sheet.preorder = r.sheet.preorder ++ [(d, s)]

theorem Reader.Grows.admits_iff {r after : Reader} {d e : Nat} {s : Statement} (h : r.Grows after d s) :
    after.frames.Admits e ↔ e ≤ d ∨ (e = d + 1 ∧ s.isHeading = true) := by
  rw [Frames.Admits, h.depth, h.nests]

theorem Reader.Sound.grows {compact : Bool} {r : Reader} (hr : r.Sound compact) {measured learned : Indentation}
    {entered : Frames} {indent : Nat} (he : r.frames.enter measured indent = (entered, learned, .ok ()))
    (ind : Indentation) (logical : List LogicalLine) (s : Statement) :
    r.Grows (Reader.take { r with indentation := ind, frames := entered, logical := logical } (some s))
      entered.depth s where
  depth := rfl
  nests := by simp [Reader.take, Frames.record, Frames.mayNest]
  view := Forest.preorder_add r.sheet entered.depth s (hr.depth_enter he)

/-- **An accepted step, in levels**: the line is taken in, and the statement it makes with its continuations is added
there. -/
theorem Reader.Sound.step_takes {compact : Bool} {r after : Reader} {line : Line} {following : List Line} {skip : Nat}
    (hr : r.Sound compact) (hb : allBlank line.text = false) (h : r.step compact line following = (after, .ok skip)) :
    ∃ style n d joined s, r.frames.Takes r.indentation line.text style n d ∧
      Joins (n * r.indentation.width style) (r.indentation.settle style n) (trim line.text) following
        after.indentation joined ∧
      Statement.read compact joined.text = .ok (some s) ∧ skip = joined.lines ∧ r.Grows after d s := by
  obtain ⟨measured, indent, entered, learned, ind, joined, s, hc, he, hj, hs, hskip, rfl⟩ := Reader.step_ok h
  obtain ⟨style, n, htakes, rfl, rfl⟩ := hr.aligned.takes hc he
  have hjoins := (joinLines_iff (Indentation.settle_pos hr.aligned.pos style n)).1 hj
  cases s with
  | none => exact absurd hs (Statement.read_ne_none (hjoins.not_blank (by rw [allBlank_trim, hb])))
  | some s => exact ⟨style, n, entered.depth, joined, s, htakes, hjoins, hs, hskip, hr.grows he ind _ s⟩

/-- The same, put together. -/
theorem Reader.Sound.step_of_takes {compact : Bool} {r : Reader} {line : Line} {following : List Line}
    (hr : r.Sound compact) {style : Style} {n d : Nat} (ht : r.frames.Takes r.indentation line.text style n d)
    {ind : Indentation} {joined : Joined} {s : Statement}
    (hj : Joins (n * r.indentation.width style) (r.indentation.settle style n) (trim line.text) following ind joined)
    (hs : Statement.read compact joined.text = .ok (some s)) :
    ∃ after, r.step compact line following = (after, .ok joined.lines) ∧ after.indentation = ind ∧
      r.Grows after d s := by
  obtain ⟨measured, entered, hc, he, rfl⟩ := ht.enter hr.aligned
  have hjoin := (joinLines_iff (Indentation.settle_pos hr.aligned.pos style n)).2 hj
  exact ⟨_, Reader.step_of_parts hc he hjoin hs, rfl, hr.grows he ind _ s⟩

theorem Reader.Sound.readLines {compact : Bool} {lines : List Line} {r : Reader}
    (h : readLines compact lines = (r, .ok ())) : r.Sound compact :=
  (readLines_iff.1 h).preserves (fun _ _ _ _ _ _ hr hb hs => hr.step hb hs) (Reader.Sound.initial compact)

/-- **The tree is the list of the logical lines**: seen in preorder, every statement stands where its line stood and as
deep as its line was indented.  No other forest has this view. -/
theorem readLines_preorder {compact : Bool} {lines : List Line} {r : Reader}
    (h : readLines compact lines = (r, .ok ())) :
    List.Forall₂ (Contributes compact r.indentation) r.logical r.sheet.preorder ∧
      r.sheet.preorder.length = r.logical.length ∧ ∀ f : Sheet, f.preorder = r.sheet.preorder → f = r.sheet := by
  have hc := (Reader.Sound.readLines h).contributes
  exact ⟨hc, hc.length_eq.symm, fun f hf => Forest.preorder_injective hf⟩

/-- A continued heading with a block in it, and a statement behind that closes both levels. -/
theorem readLines_preorder_nested : ∃ r,
    readLines false (prepare false "a\n  b,\n  c\n \n    x: y\nd".toList) = (r, .ok ()) ∧
    r.sheet.preorder = [(0, .heading (.rule ['a'] none)), (1, .heading (.rule "b, c".toList none)),
      (2, .leaf (.declare ['x'] ['y'] none)), (0, .heading (.rule ['d'] none))] ∧
    List.Forall₂ (Contributes false r.indentation) r.logical r.sheet.preorder := by
  have hok : (readLines false (prepare false "a\n  b,\n  c\n \n    x: y\nd".toList)).2 = .ok () := by decide
  exact ⟨_, Prod.ext rfl hok, by decide, (readLines_preorder (Prod.ext rfl hok)).1⟩

end Offside
