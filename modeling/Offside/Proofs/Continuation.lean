import Offside.Outline
import Offside.Proofs.Indent
import Offside.Proofs.Trim

/-!
# Continued lines

Joining the lines behind a comma, as a relation that says how it came to an end
(`Joins`); where nothing fails, the function computes it (`joinLines_iff`).  The
lines that are joined have the indent of the first one (`Joins.measures`), so
only the line that ends the joining can teach anything, and what it teaches is
the style (`Joins.step_eq`, `Joins.known`).
-/
namespace Offside

/-- **How the lines behind a text are joined to it.** -/
inductive Joins (indent : Nat) : Indentation → List Char → List Line → Indentation → Joined → Prop
  /-- The text has no comma at its end, or no line behind it says anything. -/
  | ends {ind : Indentation} {text : List Char} {lines : List Line}
      (h : text.getLast? ≠ some ',' ∨ ∀ line ∈ lines.head?, allBlank line.text = true) :
      Joins indent ind text lines ind { text := text, lines := 0 }
  /-- The next line has another indent. -/
  | stops {ind : Indentation} {text : List Char} {line : Line} {lines : List Line} {style : Style} {n : Nat}
      (hcomma : text.getLast? = some ',') (hline : allBlank line.text = false) (hm : ind.Measures line.text style n)
      (hi : n * ind.width style ≠ indent) :
      Joins indent ind text (line :: lines) (ind.see style n) { text := text, lines := 0 }
  | goes {ind after : Indentation} {text : List Char} {line : Line} {lines : List Line} {style : Style} {n : Nat}
      {more : Joined} (hcomma : text.getLast? = some ',') (hline : allBlank line.text = false)
      (hm : ind.Measures line.text style n) (hi : n * ind.width style = indent)
      (h : Joins indent (ind.see style n) (joinText text (trim line.text)) lines after more) :
      Joins indent ind text (line :: lines) after { more with lines := more.lines + 1 }

section

variable {indent : Nat} {ind after : Indentation} {text : List Char} {lines : List Line} {joined : Joined}

theorem Joins.joinLines_eq (h : Joins indent ind text lines after joined) (hpos : ∀ s, ind.step = some s → 0 < s) :
    joinLines ind indent text lines = (after, .ok joined) := by
  induction h with
  | @ends ind text lines h =>
    cases lines with
    | nil => rfl
    | cons line lines =>
      rw [joinLines]
      rcases h with h | h
      · simp [h]
      · simp [h line rfl]
  | stops hcomma hline hm hi =>
    have hc := @Indentation.Measures.classify _ _ _ _ hm hpos false (fun h => by cases h)
    simp [joinLines, hcomma, hline, hc, hi]
  | @goes ind after text line lines style n more hcomma hline hm hi _ ih =>
    have hc := @Indentation.Measures.classify _ _ _ _ hm hpos false (fun h => by cases h)
    have hj := ih (by rw [Indentation.see_step]; exact hpos)
    simp [joinLines, hcomma, hline, hc, hi, hj]

theorem joins_of_joinLines {indent : Nat} : ∀ {lines : List Line} {ind after : Indentation} {text : List Char}
    {joined : Joined}, (∀ s, ind.step = some s → 0 < s) → joinLines ind indent text lines = (after, .ok joined) →
      Joins indent ind text lines after joined
  | [], ind, after, text, joined, _, h => by
    rw [joinLines, Prod.mk.injEq, Except.ok.injEq] at h
    rw [← h.1, ← h.2]
    exact .ends (Or.inr fun _ hl => by cases hl)
  | line :: lines, ind, after, text, joined, hpos, h => by
    by_cases hgo : text.getLast? = some ',' ∧ allBlank line.text = false
    · obtain ⟨hcomma, hline⟩ := hgo
      simp only [joinLines, hcomma, beq_self_eq_true, isEmpty_trim, hline, Bool.not_false, Bool.and_self,
        ↓reduceIte] at h
      cases hc : ind.classify false line.text with
      | mk learned result =>
        rw [hc] at h
        cases result with
        | error cause => simp at h
        | ok found =>
          obtain ⟨style, n, hm, rfl, rfl⟩ := Indentation.exists_measures_of_classify hpos hc
          by_cases hi : n * ind.width style = indent
          · cases hj : joinLines (ind.see style n) indent (joinText text (trim line.text)) lines with
            | mk after' result =>
              simp only [hi, ↓reduceIte, hj] at h
              cases result with
              | error fault => simp at h
              | ok more =>
                simp only [Prod.mk.injEq, Except.ok.injEq] at h
                obtain ⟨rfl, rfl⟩ := h
                exact .goes hcomma hline hm hi (joins_of_joinLines (by rw [Indentation.see_step]; exact hpos) hj)
          · simp only [hi, ↓reduceIte, Prod.mk.injEq, Except.ok.injEq] at h
            rw [← h.1, ← h.2]
            exact .stops hcomma hline hm hi
    · have hends : text.getLast? ≠ some ',' ∨ allBlank line.text = true := by
        rwa [not_and_or, Bool.not_eq_false] at hgo
      have hj : Joins indent ind text (line :: lines) ind { text := text, lines := 0 } :=
        .ends (hends.imp id fun hb l hl => by cases hl; exact hb)
      rw [hj.joinLines_eq hpos, Prod.mk.injEq, Except.ok.injEq] at h
      rw [← h.1, ← h.2]
      exact hj

theorem joinLines_iff (hpos : ∀ s, ind.step = some s → 0 < s) :
    joinLines ind indent text lines = (after, .ok joined) ↔ Joins indent ind text lines after joined :=
  ⟨joins_of_joinLines hpos, fun h => h.joinLines_eq hpos⟩

namespace Joins

theorem unique {after' : Indentation} {joined' : Joined} (h : Joins indent ind text lines after joined)
    (h' : Joins indent ind text lines after' joined') (hpos : ∀ s, ind.step = some s → 0 < s) :
    after = after' ∧ joined = joined' := by
  simpa using (h.joinLines_eq hpos).symm.trans (h'.joinLines_eq hpos)

/-- Joining lines may learn the style, but never the step. -/
theorem step_eq (h : Joins indent ind text lines after joined) : after.step = ind.step := by
  induction h with
  | ends _ => rfl
  | stops _ _ _ _ => rw [Indentation.see_step]
  | goes _ _ _ _ _ ih => rw [ih, Indentation.see_step]

theorem of_ends (h : Joins indent ind text lines after joined)
    (hends : text.getLast? ≠ some ',' ∨ ∀ line ∈ lines.head?, allBlank line.text = true) :
    after = ind ∧ joined = { text := text, lines := 0 } := by
  cases h with
  | ends _ => exact ⟨rfl, rfl⟩
  | stops hcomma hline _ _ =>
    rw [hends.resolve_left (fun hno => hno hcomma) _ rfl] at hline
    cases hline
  | goes hcomma hline _ _ _ =>
    rw [hends.resolve_left (fun hno => hno hcomma) _ rfl] at hline
    cases hline

/-- Joining never makes a text blank: the comma stays. -/
theorem not_blank (h : Joins indent ind text lines after joined) (hb : allBlank text = false) :
    allBlank joined.text = false := by
  induction h with
  | ends _ => exact hb
  | stops _ _ _ _ => exact hb
  | goes _ _ _ _ _ ih => exact ih (by simp [joinText, allBlank, show isBlank ',' = false by decide])

theorem known (h : Joins indent ind text lines after joined) (hk : ind.style ≠ none) : after = ind := by
  induction h with
  | ends _ => rfl
  | stops _ _ hm _ => exact Indentation.see_of_known (fun _ => hk) hm.agrees
  | goes _ _ hm _ _ ih =>
    rw [Indentation.see_of_known (fun _ => hk) hm.agrees] at ih
    exact ih hk

theorem keeps (h : Joins indent ind text lines after joined) : after.Extends ind :=
  ⟨fun hs => by rw [h.known hs], fun _ => h.step_eq⟩

/-- **The lines that were joined have the indent of the first one.** -/
theorem measures (h : Joins indent ind text lines after joined) (hpos : ∀ s, ind.step = some s → 0 < s)
    (hk : indent ≠ 0 → ind.style ≠ none) :
    ∀ line ∈ lines.take joined.lines, allBlank line.text = false ∧
      ∃ style n, ind.Measures line.text style n ∧ n * ind.width style = indent := by
  induction h with
  | ends _ => simp
  | stops _ _ _ _ => simp
  | @goes ind after text line lines style n more hcomma hline hm hi _ ih =>
    have hsee := Indentation.see_of_joined hpos hk hi hm.agrees
    rw [hsee] at ih
    intro l hl
    rcases List.mem_cons.1 hl with rfl | hl
    · exact ⟨hline, style, n, hm, hi⟩
    · exact ih hpos hk l hl

end Joins
end

end Offside
