import Offside.Proofs.Reading

/-!
# The lines a logical line is made of

The lines of a file that say anything fall into groups, one after the other, and each logical line is
one group put together (`readLines_grouped`).  So a property of texts that joining keeps goes from the
lines to the logical lines, and whatever stands on a line can be found again.
-/
namespace Offside

/-- The texts are joined one after the other, each to a text that ends with a comma. -/
inductive Continued : List Char → List (List Char) → List Char → Prop
  | done {text : List Char} : Continued text [] text
  | more {text next result : List Char} {texts : List (List Char)} (hcomma : text.getLast? = some ',')
      (h : Continued (joinText text next) texts result) : Continued text (next :: texts) result

theorem Continued.preserves {P : List Char → Prop} {text result : List Char} {texts : List (List Char)}
    (h : Continued text texts result)
    (hjoin : ∀ text next, text.getLast? = some ',' → P text → P next → P (joinText text next)) (ht : P text)
    (hts : ∀ t ∈ texts, P t) : P result := by
  induction h with
  | done => exact ht
  | more hcomma _ ih =>
    rw [List.forall_mem_cons] at hts
    exact ih (hjoin _ _ hcomma ht hts.1) hts.2

/-- Each logical line is made of the lines of one group, and all lines that are not blank are in a group. -/
def Grouped (lines : List Line) (logical : List LogicalLine) : Prop :=
  ∃ groups : List (Line × List Line),
    (groups.flatMap fun g => g.1 :: g.2) = lines.filter (fun line => !allBlank line.text) ∧
      List.Forall₂ (fun g l => Continued (trim g.1.text) (g.2.map fun line => trim line.text) l.text) groups logical

theorem Joins.continued {indent : Nat} {ind after : Indentation} {text : List Char} {lines : List Line} {joined : Joined}
    (h : Joins indent ind text lines after joined) :
    Continued text ((lines.take joined.lines).map fun line => trim line.text) joined.text ∧
      ∀ line ∈ lines.take joined.lines, allBlank line.text = false := by
  induction h with
  | ends _ => exact ⟨.done, by simp⟩
  | stops _ _ _ _ => exact ⟨.done, by simp⟩
  | goes hcomma hline _ _ _ ih =>
    simp only [List.take_succ_cons, List.map_cons, List.forall_mem_cons]
    exact ⟨.more hcomma ih.1, hline, ih.2⟩

namespace Reader

/-- The logical line that a step adds. -/
theorem Sound.step_continued {compact : Bool} {r next : Reader} {line : Line} {following : List Line} {skip : Nat}
    (hr : r.Sound compact) (h : r.step compact line following = (next, .ok skip)) :
    ∃ l : LogicalLine, next.logical = r.logical ++ [l] ∧
      Continued (trim line.text) ((following.take skip).map fun line => trim line.text) l.text ∧
      ∀ line ∈ following.take skip, allBlank line.text = false := by
  obtain ⟨measured, indent, entered, learned, ind, joined, s, hc, he, hj, -, rfl, rfl⟩ := Reader.step_ok h
  have hmeasured : measured.step = r.indentation.step := by
    have := r.indentation.classify_step true line.text
    rwa [hc] at this
  obtain ⟨hlearned, -⟩ := (hr.aligned.congr hmeasured).enter he
  obtain ⟨hcontinued, hblank⟩ := ((joinLines_iff hlearned.pos).1 hj).continued
  exact ⟨_, by cases s <;> rfl, hcontinued, hblank⟩

theorem Runs.grouped {compact : Bool} {skip : Nat} {r after : Reader} {lines : List Line}
    (h : Runs compact skip r lines after) (hr : r.Sound compact) :
    ∃ new, after.logical = r.logical ++ new ∧ Grouped (lines.drop skip) new := by
  induction h with
  | done => exact ⟨[], by simp, [], by simp, .nil⟩
  | pass _ ih => exact ih hr
  | blank hb _ ih =>
    obtain ⟨new, hnew, groups, hflat, hgroups⟩ := ih hr
    exact ⟨new, hnew, groups, by simpa [hb] using hflat, hgroups⟩
  | @step skip r next after line lines hb hs _ ih =>
    obtain ⟨l, hl, hcontinued, hvisible⟩ := hr.step_continued hs
    obtain ⟨new, hnew, groups, hflat, hgroups⟩ := ih (hr.step hb hs)
    refine ⟨l :: new, by rw [hnew, hl]; simp, (line, lines.take skip) :: groups, ?_, .cons hcontinued hgroups⟩
    -- the lines that were joined are not blank, and those behind them make the other groups
    have htaken : (lines.take skip).filter (fun line => !allBlank line.text) = lines.take skip :=
      List.filter_eq_self.2 fun l hl => by simp [hvisible l hl]
    have hsplit := congrArg (List.filter fun line : Line => !allBlank line.text) (List.take_append_drop skip lines)
    rw [List.filter_append, htaken, ← hflat] at hsplit
    rw [List.drop_zero, List.flatMap_cons, List.filter_cons_of_pos (by simp [hb]), ← hsplit, List.cons_append]

end Reader

theorem readLines_grouped {compact : Bool} {lines : List Line} {r : Reader} (h : readLines compact lines = (r, .ok ())) :
    Grouped lines r.logical := by
  obtain ⟨new, hnew, hgrouped⟩ := (readLines_iff.1 h).grouped (Reader.Sound.initial compact)
  rw [hnew]
  exact hgrouped

namespace Grouped

variable {lines : List Line} {logical : List LogicalLine}

/-- **What joining keeps goes from the lines to the logical lines.** -/
theorem forall_text (h : Grouped lines logical) {P : List Char → Prop} (hline : ∀ line ∈ lines, P (trim line.text))
    (hjoin : ∀ text next, text.getLast? = some ',' → P text → P next → P (joinText text next)) :
    ∀ l ∈ logical, P l.text := by
  obtain ⟨groups, hflat, hgroups⟩ := h
  have hmem : ∀ g ∈ groups, ∀ line ∈ g.1 :: g.2, P (trim line.text) := by
    intro g hg line hl
    have hm : line ∈ groups.flatMap fun g => g.1 :: g.2 := List.mem_flatMap.2 ⟨g, hg, hl⟩
    rw [hflat] at hm
    exact hline line (List.mem_filter.1 hm).1
  clear hflat
  induction hgroups with
  | nil => simp
  | cons hg _ ih =>
    rw [List.forall_mem_cons] at hmem ⊢
    refine ⟨hg.preserves hjoin (hmem.1 _ List.mem_cons_self) fun t ht => ?_, ih hmem.2⟩
    obtain ⟨line, hl, rfl⟩ := List.mem_map.1 ht
    exact hmem.1 line (List.mem_cons_of_mem _ hl)

end Grouped

end Offside
