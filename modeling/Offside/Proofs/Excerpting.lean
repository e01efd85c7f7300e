import Offside.Console.Card
import Offside.Proofs.Reporting

/-!
# The excerpt around a fault

A fault is placed by counting LFs, an excerpt is cut off by counting the lines a screen shows.  A screen breaks lines at every
LF and at other characters too, and only a last line without a character counts for nothing.  A fault has a character
of the source at its index, so its line is one of those that are shown (`count_lt_lineCountFrom`).
-/
namespace Offside.Console

/-! ## Counting lines -/

theorem lineCountFrom_pos {begun : Bool} {cs : List Char} (h : begun = true ∨ cs ≠ []) : 0 < lineCountFrom begun cs := by
  fun_induction lineCountFrom begun cs with
  | case1 => exact Nat.one_pos
  | case2 begun hbegun => simp [hbegun] at h
  | case3 => omega
  | case4 => omega
  | case5 _ _ _ _ _ ih => exact ih (Or.inl rfl)

/-- Fewer LFs stand before a character of a text than the text has lines. -/
theorem count_lt_lineCountFrom (begun : Bool) (cs : List Char) {i : Nat} (h : i < cs.length) :
    (cs.take i).count '\n' < lineCountFrom begun cs := by
  fun_induction lineCountFrom begun cs generalizing i with
  | case1 => simp at h
  | case2 => simp at h
  | case3 begun cs ih =>
    match i with
    | 0 => exact Nat.lt_of_lt_of_le Nat.zero_lt_one (Nat.le_add_right 1 _)
    | 1 => exact Nat.lt_of_lt_of_le Nat.zero_lt_one (Nat.le_add_right 1 _)
    | i + 2 =>
      have := ih (i := i) (by simpa using h)
      rw [List.take_succ_cons, List.take_succ_cons, List.count_cons_of_ne (by decide), List.count_cons_self]
      omega
  | case4 begun c cs _ hbreak ih =>
    cases i with
    | zero => exact Nat.lt_of_lt_of_le Nat.zero_lt_one (Nat.le_add_right 1 _)
    | succ i =>
      have := ih (i := i) (by simpa using h)
      rw [List.take_succ_cons, List.count_cons]
      split <;> omega
  | case5 begun c cs _ hbreak ih =>
    cases i with
    | zero => exact lineCountFrom_pos (Or.inl rfl)
    | succ i =>
      have hc : c ≠ '\n' := by
        rintro rfl
        exact hbreak rfl
      rw [List.take_succ_cons, List.count_cons_of_ne hc]
      exact ih (i := i) (by simpa using h)

/-- **A fault is in a line of the source**, the way a screen counts them. -/
theorem fault_line_le {o : Options} {source : List Char} {fault : Fault} (h : compile o source = .error fault) :
    1 ≤ (fault.position source).line ∧ (fault.position source).line ≤ lineCount source := by
  have hindex := index_lt_of_compile h
  have hcount := count_lt_lineCountFrom false source hindex
  rw [Fault.position, Position.locate_eq_after, Position.clamp, Int.toNat_natCast, Nat.min_eq_left (Nat.le_of_lt hindex)]
  exact ⟨Nat.le_add_left 1 _, hcount⟩

/-! ## Excerpts -/

/-- What is shown around a line that the source has begins in the source, has the line in it and ends in the source. -/
theorem Excerpt.around_shows {source : List Char} {line : Int} (hpos : 1 ≤ line) (hle : line ≤ lineCount source) :
    1 ≤ (around source line).first ∧ (around source line).first ≤ line ∧ line ≤ (around source line).last ∧
      (around source line).last ≤ lineCount source := by
  simp only [around, excerptContext]
  omega

theorem exists_fault_of_check {w : World} {o : Options} {input : Stream} (hr : (w.check o input).2.status = "COMPILE_ERROR") :
    ∃ text fault, (w.check o input).2 = { input := input, outcome := .compileError text fault } ∧
      compile o text = .error fault := by
  rw [World.check_report] at hr ⊢
  cases hread : (w.read input).2 with
  | error fault =>
    rw [hread] at hr
    cases fault <;> simp [World.checked, Report.status] at hr
  | ok text =>
    rw [hread] at hr
    simp only [World.checked] at hr ⊢
    cases hcompile : compile o text with
    | error fault => exact ⟨text, fault, rfl, hcompile⟩
    | ok css => simp [hcompile, Report.status] at hr

/-- **A compile error is shown with its line.**  The report of a build or a check that ends with a fault is shown as a table
with an excerpt of the source: it marks the fault's line, which lies between its first and its last, and all of them are
lines of the source. -/
theorem Card.item_of_fault {w : World} {o : Options} {input output : Stream} {source : Option (List Char)} {r : Report}
    (h : (w.build o input output source).2 = .ok r ∨ (w.check o input).2 = r) (hr : r.status = "COMPILE_ERROR") :
    ∃ place excerpt, r.located? = some place ∧
      (Card.of r).item? = some (.panel
        { body := .table { headers := [""], rows := [[.markup (Card.of r).header], [.excerpt excerpt]] }
          title := some "Compile Failed", border := "red" }) ∧
      excerpt.source = place.source ∧ excerpt.marked = place.position.line ∧
      1 ≤ excerpt.first ∧ excerpt.first ≤ excerpt.marked ∧ excerpt.marked ≤ excerpt.last ∧
      excerpt.last ≤ lineCount place.source := by
  obtain ⟨text, fault, rfl, hcompile⟩ : ∃ text fault,
      r = { input := input, outcome := .compileError text fault } ∧ compile o text = .error fault := by
    rcases h with h | rfl
    · have hcomes := w.build_comes o input output source
      rw [h] at hcomes
      obtain ⟨text, fault, houtcome, -, hcompile⟩ := hcomes.exists_fault hr
      exact ⟨text, fault, houtcome, hcompile⟩
    · exact exists_fault_of_check hr
  obtain ⟨hpos, hle⟩ := fault_line_le hcompile
  have hne : text.isEmpty = false := by
    cases text with
    | nil => exact absurd (index_lt_of_compile hcompile) (Nat.not_lt_zero _)
    | cons => rfl
  refine ⟨_, .around text (fault.position text).line, rfl, ?_, rfl, rfl, Excerpt.around_shows (by omega) (by omega)⟩
  simp [item?, showCompileError, Card.of, Report.status, hne]

/-- A fault in the last line, behind characters that only a screen breaks lines at: line 4 of 6. -/
theorem Card.item_of_fault_last :
    let source := "a\x0bb\n\u2028\n\n\t: c".toList
    let w : World := { here := [] }
    ∃ r excerpt, (w.build {} .standard .standard (some source)).2 = .ok r ∧ r.status = "COMPILE_ERROR" ∧
      (Card.of r).item? = some (.panel
        { body := .table { headers := [""], rows := [[.markup (Card.of r).header], [.excerpt excerpt]] }
          title := some "Compile Failed", border := "red" }) ∧
      lineCount source = 6 ∧ excerpt.marked = 4 ∧ 1 ≤ excerpt.first ∧ excerpt.first ≤ 4 ∧ 4 ≤ excerpt.last ∧
      excerpt.last ≤ 6 := by
  intro source w
  have h : (w.build {} .standard .standard (some source)).2 = .ok
      { input := .standard, outcome := .compileError source { cause := .emptyProperty, index := 7 } } := by decide
  obtain ⟨place, excerpt, hplace, hitem, -, hmarked, hfirst, hbefore, hbehind, hlast⟩ :=
    item_of_fault (Or.inl h) rfl
  cases hplace
  have hline : excerpt.marked = 4 := hmarked.trans (by decide)
  rw [hline] at hbefore hbehind
  exact ⟨_, excerpt, h, rfl, hitem, by decide, hline, hfirst, hbefore, hbehind, hlast⟩

end Offside.Console
