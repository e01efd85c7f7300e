import Offside.Outline
import Offside.Proofs.Trim

/-!
# Reading line by line

`readLines` looks ahead for the lines that go on with a logical line.  The same reading needs no
look ahead if the logical line that is being put together is a part of the state: it is closed when
a line comes that does not go on with it (`Reader.feed`).  Reading is then a fold over the lines
(`readLines_eq_feed`), and what stands before a line is told by the reading of the lines before it.
-/
namespace Offside
namespace Reader

/-- A reader between two lines, with the logical line that is open, or with the fault that stopped it. -/
abbrev Progress := Reader × Except Fault (Option LogicalLine)

/-- Reads the logical line that was put together. -/
def close (compact : Bool) (r : Reader) (l : LogicalLine) : Reader × Except Fault Unit :=
  let recorded := { r with logical := r.logical ++ [l] }
  match Statement.read compact l.text with
  | .error cause => (recorded, .error { cause := cause, index := l.offset })
  | .ok s => (recorded.take s, .ok ())

/-- Opens a logical line, unless the line is blank. -/
def start (r : Reader) (line : Line) : Progress :=
  if allBlank line.text then (r, .ok none)
  else
    match r.indentation.classify true line.text with
    | (ind, .error cause) => ({ r with indentation := ind }, .error { cause := cause, index := line.offset })
    | (ind, .ok indent) =>
      match r.frames.enter ind indent with
      | (frames, ind, .error cause) =>
        ({ r with indentation := ind, frames := frames }, .error { cause := cause, index := line.offset })
      | (frames, ind, .ok ()) =>
        ({ r with indentation := ind, frames := frames },
          .ok (some { text := trim line.text, offset := line.offset, indent := indent }))

def closeAndStart (compact : Bool) (r : Reader) (l : LogicalLine) (line : Line) : Progress :=
  match r.close compact l with
  | (r, .error fault) => (r, .error fault)
  | (r, .ok ()) => r.start line

/-- Takes one line in. -/
def feed (compact : Bool) : Progress → Line → Progress
  | (r, .error fault), _ => (r, .error fault)
  | (r, .ok none), line => r.start line
  | (r, .ok (some l)), line =>
    if l.text.getLast? == some ',' && !allBlank line.text then
      match r.indentation.classify false line.text with
      | (ind, .error cause) => ({ r with indentation := ind }, .error { cause := cause, index := line.offset })
      | (ind, .ok found) =>
        if found = l.indent then
          ({ r with indentation := ind }, .ok (some { l with text := joinText l.text (trim line.text) }))
        else closeAndStart compact { r with indentation := ind } l line
    else r.closeAndStart compact l line

/-- Ends the reading: what is open is closed. -/
def finish (compact : Bool) : Progress → Reader × Except Fault Unit
  | (r, .error fault) => (r, .error fault)
  | (r, .ok none) => (r, .ok ())
  | (r, .ok (some l)) => r.close compact l

variable {compact : Bool}

theorem logical_close (r : Reader) (l : LogicalLine) :
    (r.close compact l).1.logical = r.logical ++ [l] := by
  unfold close
  cases Statement.read compact l.text with
  | error cause => rfl
  | ok s => cases s <;> rfl

theorem indentation_close (r : Reader) (l : LogicalLine) :
    (r.close compact l).1.indentation = r.indentation := by
  unfold close
  cases Statement.read compact l.text with
  | error cause => rfl
  | ok s => cases s <;> rfl

theorem foldl_feed_error (r : Reader) (fault : Fault) (lines : List Line) :
    lines.foldl (feed compact) (r, .error fault) = (r, .error fault) := by
  induction lines with
  | nil => rfl
  | cons line lines ih => exact ih

/-- The rest of a reading, once a logical line has been closed. -/
def resume (compact : Bool) (lines : List Line) : Reader × Except Fault Unit → Reader × Except Fault Unit
  | (r, .error fault) => (r, .error fault)
  | (r, .ok ()) => finish compact (lines.foldl (feed compact) (r, .ok none))

theorem resume_nil (p : Reader × Except Fault Unit) : resume compact [] p = p := by
  obtain ⟨r, result⟩ := p
  cases result <;> rfl

theorem finish_closeAndStart (r : Reader) (l : LogicalLine) (line : Line) (lines : List Line) :
    finish compact (lines.foldl (feed compact) (r.closeAndStart compact l line)) =
      resume compact (line :: lines) (r.close compact l) := by
  unfold closeAndStart
  cases r.close compact l with
  | mk closed result =>
    cases result with
    | error fault =>
      rw [foldl_feed_error]
      rfl
    | ok _ => rfl

/-- **An open logical line is closed where the joining of lines would have ended it.** -/
theorem finish_feed_some : ∀ (lines : List Line) (r : Reader) (l : LogicalLine),
    finish compact (lines.foldl (feed compact) (r, .ok (some l))) =
      match joinLines r.indentation l.indent l.text lines with
      | (ind, .error fault) => ({ r with indentation := ind }, .error fault)
      | (ind, .ok joined) =>
        resume compact (lines.drop joined.lines)
          (close compact { r with indentation := ind } { l with text := joined.text })
  | [], r, l => (resume_nil (r.close compact l)).symm
  | line :: lines, r, l => by
    rw [List.foldl_cons, feed, joinLines, isEmpty_trim]
    by_cases hgo : (l.text.getLast? == some ',' && !allBlank line.text) = true
    · rw [if_pos hgo, if_pos hgo]
      cases r.indentation.classify false line.text with
      | mk ind result =>
        cases result with
        | error cause => rw [foldl_feed_error]; rfl
        | ok found =>
          simp only
          by_cases hfound : found = l.indent
          · rw [if_pos hfound, if_pos hfound, finish_feed_some lines]
            cases joinLines ind l.indent (joinText l.text (trim line.text)) lines with
            | mk after result => cases result <;> rfl
          · rw [if_neg hfound, if_neg hfound, finish_closeAndStart]
            rfl
    · rw [if_neg hgo, if_neg hgo, finish_closeAndStart]
      rfl

theorem readFrom_drop (r : Reader) : ∀ (skip : Nat) (lines : List Line),
    readFrom compact skip r lines = readFrom compact 0 r (lines.drop skip)
  | 0, _ => rfl
  | _ + 1, [] => rfl
  | skip + 1, _ :: lines => readFrom_drop r skip lines

theorem readFrom_eq_feed (r : Reader) (lines : List Line) :
    readFrom compact 0 r lines = finish compact (lines.foldl (feed compact) (r, .ok none)) := by
  match lines with
  | [] => rfl
  | line :: lines =>
    rw [readFrom, List.foldl_cons, feed, start]
    by_cases hblank : allBlank line.text = true
    · rw [if_pos hblank, if_pos hblank, readFrom_eq_feed r lines]
    · rw [if_neg hblank, if_neg hblank, step]
      cases r.indentation.classify true line.text with
      | mk ind result =>
        cases result with
        | error cause => simp only [foldl_feed_error]; rfl
        | ok indent =>
          simp only
          cases r.frames.enter ind indent with
          | mk frames entered =>
            obtain ⟨learned, result⟩ := entered
            cases result with
            | error cause => simp only [foldl_feed_error]; rfl
            | ok _ =>
              simp only [finish_feed_some]
              cases joinLines learned indent (trim line.text) lines with
              | mk after result =>
                cases result with
                | error fault => rfl
                | ok joined =>
                  simp only [close]
                  cases Statement.read compact joined.text with
                  | error cause => rfl
                  | ok s =>
                    simp only [resume]
                    rw [readFrom_drop, readFrom_eq_feed _ (lines.drop joined.lines)]
termination_by lines.length

/-! ## One line, taken apart -/

theorem start_ok {r next : Reader} {line : Line} {l? : Option LogicalLine} (h : r.start line = (next, .ok l?)) :
    (allBlank line.text = true ∧ next = r ∧ l? = none) ∨
      (allBlank line.text = false ∧ ∃ measured indent entered learned,
        r.indentation.classify true line.text = (measured, .ok indent) ∧
        r.frames.enter measured indent = (entered, learned, .ok ()) ∧
        next = { r with indentation := learned, frames := entered } ∧
        l? = some { text := trim line.text, offset := line.offset, indent := indent }) := by
  unfold start at h
  split at h
  · rename_i hb
    simp only [Prod.mk.injEq, Except.ok.injEq] at h
    exact Or.inl ⟨hb, h.1.symm, h.2.symm⟩
  · rename_i hb
    split at h
    · cases h
    · rename_i measured indent hc
      split at h
      · cases h
      · rename_i entered learned he
        simp only [Prod.mk.injEq, Except.ok.injEq] at h
        exact Or.inr ⟨by simpa using hb, measured, indent, entered, learned, hc, he, h.1.symm, h.2.symm⟩

/-- The next line goes on with the open one, or the open one is closed and the line is the first of another. -/
theorem feed_some_ok {r next : Reader} {l : LogicalLine} {line : Line} {l? : Option LogicalLine}
    (h : feed compact (r, .ok (some l)) line = (next, .ok l?)) :
    (l.text.getLast? = some ',' ∧ allBlank line.text = false ∧ ∃ ind,
      r.indentation.classify false line.text = (ind, .ok l.indent) ∧ next = { r with indentation := ind } ∧
        l? = some { l with text := joinText l.text (trim line.text) }) ∨
    ∃ ind closed, close compact { r with indentation := ind } l = (closed, .ok ()) ∧
      closed.start line = (next, .ok l?) ∧
      ((ind = r.indentation ∧ (l.text.getLast? ≠ some ',' ∨ allBlank line.text = true)) ∨
        ∃ found, r.indentation.classify false line.text = (ind, .ok found) ∧ found ≠ l.indent) := by
  have hclose : ∀ {r : Reader}, closeAndStart compact r l line = (next, .ok l?) →
      ∃ closed, close compact r l = (closed, .ok ()) ∧ closed.start line = (next, .ok l?) := by
    intro r h
    unfold closeAndStart at h
    split at h
    · cases h
    · rename_i closed hc
      exact ⟨closed, hc, h⟩
  unfold feed at h
  simp only at h
  split at h
  · rename_i hgo
    simp only [Bool.and_eq_true, beq_iff_eq, Bool.not_eq_true'] at hgo
    split at h
    · cases h
    · rename_i ind found hc
      split at h
      · rename_i hfound
        simp only [Prod.mk.injEq, Except.ok.injEq] at h
        exact Or.inl ⟨hgo.1, hgo.2, ind, by rw [hc, hfound], h.1.symm, h.2.symm⟩
      · rename_i hfound
        obtain ⟨closed, hclosed, hstart⟩ := hclose h
        exact Or.inr ⟨ind, closed, hclosed, hstart, Or.inr ⟨found, hc, hfound⟩⟩
  · rename_i hgo
    obtain ⟨closed, hclosed, hstart⟩ := hclose h
    refine Or.inr ⟨r.indentation, closed, hclosed, hstart, Or.inl ⟨rfl, ?_⟩⟩
    by_cases hcomma : l.text.getLast? = some ','
    · simp only [hcomma, beq_self_eq_true, Bool.true_and, Bool.not_eq_true, Bool.not_eq_false'] at hgo
      exact Or.inr hgo
    · exact Or.inl hcomma

end Reader

theorem readLines_eq_feed (compact : Bool) (lines : List Line) :
    readLines compact lines = Reader.finish compact (lines.foldl (Reader.feed compact) ({}, .ok none)) :=
  Reader.readFrom_eq_feed {} lines

end Offside
