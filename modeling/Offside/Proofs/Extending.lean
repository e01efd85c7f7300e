import Offside.Proofs.Feeding
import Offside.Proofs.Reading

/-!
# Reading on

Where the last line asks for no other one, nothing that comes behind it has a say in how the lines
before are read: reading goes on from the reader they leave, or stops where they stopped it
(`readLines_append`).  A reader only adds to what it has recorded and built, so the lines before are
read as the beginning of the whole (`readLines_isPrefix`).
-/
namespace Offside
namespace Reader

variable {compact : Bool}

/-- The open logical line ends as the last line does. -/
theorem getLast?_feed {p : Progress} {line : Line} {r : Reader} {l : LogicalLine}
    (h : feed compact p line = (r, .ok (some l))) : l.text.getLast? = (trim line.text).getLast? := by
  have hstart : ∀ {r₀ : Reader}, r₀.start line = (r, .ok (some l)) → l.text.getLast? = (trim line.text).getLast? := by
    intro r₀ hs
    rcases start_ok hs with ⟨-, -, hnone⟩ | ⟨-, _, _, _, _, -, -, -, hsome⟩
    · cases hnone
    · rw [Option.some.inj hsome]
  obtain ⟨r₀, result⟩ := p
  cases result with
  | error fault => cases h
  | ok l₀ =>
    cases l₀ with
    | none => exact hstart h
    | some l₀ =>
      rcases feed_some_ok h with ⟨-, hblank, _, -, -, hsome⟩ | ⟨_, closed, -, hs, -⟩
      · rw [Option.some.inj hsome]
        exact getLast?_append_trim hblank _
      · exact hstart hs

/-- **A logical line that asks for no other line is closed by any**, so what is read so far may as well be finished. -/
theorem finish_foldl_feed {p : Progress} (h : ∀ r l, p = (r, .ok (some l)) → l.text.getLast? ≠ some ',')
    (lines : List Line) :
    finish compact (lines.foldl (feed compact) p) = resume compact lines (finish compact p) := by
  obtain ⟨r, result⟩ := p
  cases result with
  | error fault =>
    rw [foldl_feed_error]
    rfl
  | ok l =>
    cases l with
    | none => rfl
    | some l =>
      cases lines with
      | nil => exact (resume_nil _).symm
      | cons line lines =>
        have hfeed : feed compact (r, .ok (some l)) line = r.closeAndStart compact l line := by
          simp [feed, h r l rfl]
        rw [List.foldl_cons, hfeed, finish_closeAndStart]
        rfl

/-! ## What a reader has done stays -/

theorem logical_step (r : Reader) (line : Line) (following : List Line) :
    r.logical <+: (r.step compact line following).1.logical := by
  simp only [step]
  split
  · exact List.prefix_rfl
  · split
    · exact List.prefix_rfl
    · split
      · exact List.prefix_rfl
      · split
        · exact List.prefix_append _ _
        · rename_i s _
          cases s <;> exact List.prefix_append _ _

/-- Whether it is accepted or not, a run takes nothing back that was recorded. -/
theorem logical_readFrom (skip : Nat) (r : Reader) (lines : List Line) :
    r.logical <+: (readFrom compact skip r lines).1.logical := by
  fun_induction readFrom compact skip r lines with
  | case1 => exact List.prefix_rfl
  | case2 _ _ _ _ ih => exact ih
  | case3 _ _ _ _ ih => exact ih
  | case4 r line lines _ next fault hs =>
    have := @logical_step compact r line lines
    rwa [hs] at this
  | case5 r line lines _ next skip hs ih =>
    have := @logical_step compact r line lines
    rw [hs] at this
    exact this.trans ih

/-- Nor does an accepted one take anything back that was built. -/
theorem Runs.preorder_isPrefix {skip : Nat} {r after : Reader} {lines : List Line} (h : Runs compact skip r lines after)
    (hr : r.Sound compact) : r.sheet.preorder <+: after.sheet.preorder := by
  have hinv : after.Sound compact ∧ r.sheet.preorder <+: after.sheet.preorder := by
    refine h.preserves (P := fun now => now.Sound compact ∧ r.sheet.preorder <+: now.sheet.preorder) ?_
      ⟨hr, List.prefix_rfl⟩
    rintro now next line following skip - ⟨hnow, hpre⟩ hb hs
    obtain ⟨_, _, d, _, s, -, -, -, -, hgrows⟩ := hnow.step_takes hb hs
    exact ⟨hnow.step hb hs, hgrows.view ▸ hpre.trans (List.prefix_append _ _)⟩
  exact hinv.2

end Reader

/-- **Reading on is reading the rest** from where the first part ended. -/
theorem readLines_append {compact : Bool} {lines : List Line}
    (h : ∀ line ∈ lines.getLast?, (trim line.text).getLast? ≠ some ',') (more : List Line) :
    readLines compact (lines ++ more) = Reader.resume compact more (readLines compact lines) := by
  rw [readLines_eq_feed, readLines_eq_feed, List.foldl_append, Reader.finish_foldl_feed]
  intro r l hopen
  rcases List.eq_nil_or_concat lines with rfl | ⟨front, line, rfl⟩
  · cases hopen
  · rw [List.concat_eq_append] at h hopen
    rw [List.foldl_append] at hopen
    rw [Reader.getLast?_feed hopen]
    exact h line (List.getLast?_concat ..)

/-- **Lines are read without looking ahead**, where the last one does not end with a comma.  If they are refused, more
lines change nothing; if not, they are the beginning of what is read with more lines behind them. -/
theorem readLines_isPrefix {compact : Bool} {lines : List Line}
    (h : ∀ line ∈ lines.getLast?, (trim line.text).getLast? ≠ some ',') (more : List Line) :
    (∀ fault, (readLines compact lines).2 = .error fault → readLines compact (lines ++ more) = readLines compact lines) ∧
      ((readLines compact lines).2 = .ok () →
        (readLines compact lines).1.logical <+: (readLines compact (lines ++ more)).1.logical ∧
        ((readLines compact (lines ++ more)).2 = .ok () →
          (readLines compact lines).1.sheet.preorder <+: (readLines compact (lines ++ more)).1.sheet.preorder)) := by
  rw [readLines_append h more]
  cases hread : readLines compact lines with
  | mk r result =>
    cases result with
    | error fault => exact ⟨fun _ _ => rfl, fun hok => by cases hok⟩
    | ok _ =>
      have hresume : Reader.resume compact more (r, .ok ()) = Reader.readFrom compact 0 r more :=
        (Reader.readFrom_eq_feed r more).symm
      rw [hresume]
      refine ⟨fun _ herror => (by cases herror), fun _ => ⟨Reader.logical_readFrom 0 r more, fun hok => ?_⟩⟩
      exact (Reader.runs_of_readFrom (Prod.ext rfl hok)).preorder_isPrefix (Reader.Sound.readLines hread)

/-- The style is learned where a line is looked at as a continuation.  A line behind it that is indented otherwise is
refused, and what was read before stays. -/
theorem readLines_isPrefix_refused :
    let lines : List Line := [{ text := "a,".toList, offset := 0 }, { text := "\tb: c".toList, offset := 3 }]
    let more : List Line := [{ text := "  d".toList, offset := 9 }]
    (∀ line ∈ lines.getLast?, (trim line.text).getLast? ≠ some ',') ∧ (readLines false lines).2 = .ok () ∧
      (readLines false (lines ++ more)).2 = .error { cause := .mixedIndentation, index := 9 } ∧
      (readLines false lines).1.logical <+: (readLines false (lines ++ more)).1.logical := by
  have hlast : ∀ line ∈ [({ text := "a,".toList, offset := 0 } : Line), { text := "\tb: c".toList, offset := 3 }].getLast?,
      (trim line.text).getLast? ≠ some ',' := by decide
  have hok : (readLines false [{ text := "a,".toList, offset := 0 }, { text := "\tb: c".toList, offset := 3 }]).2 =
      .ok () := by decide
  exact ⟨hlast, hok, by decide, ((readLines_isPrefix hlast _).2 hok).1⟩

end Offside
