import Mathlib.Data.Prod.Lex
import Mathlib.Order.Interval.Set.Defs
import Mathlib.Order.Monotone.Basic
import Offside.Proofs.Lines
import Offside.Proofs.Reporting

/-!
# Line, column and byte offset

A position is told by the text in front of it, and each of its two coordinates, line and column on one side and the byte
offset on the other, tells that text again: the lines of the source lead to it (`Position.Names`), and both coordinates grow
with every character (`Position.strictMonoOn_lineColumn`, `Position.strictMonoOn_byteOffset`).
-/
namespace Offside

theorem utf8Length_pos {cs : List Char} (h : cs ≠ []) : 0 < utf8Length cs := by
  cases cs with
  | nil => exact absurd rfl h
  | cons c cs => exact Nat.add_pos_left c.utf8Size_pos (utf8Length cs)

/-! ## Lines that end with LF -/

theorem splitOn_flatMap_append (rest : List Char) : ∀ {lines : List (List Char)}, (∀ line ∈ lines, '\n' ∉ line) →
    (lines.flatMap (· ++ ['\n']) ++ rest).splitOn '\n' = lines ++ rest.splitOn '\n'
  | [], _ => rfl
  | line :: lines, h => by
    rw [List.forall_mem_cons] at h
    have ih := splitOn_flatMap_append rest h.2
    rw [List.flatMap_cons, List.append_assoc, List.append_assoc, List.singleton_append,
      List.splitOn_append_cons_self_of_not_mem h.1, ih, List.cons_append]

theorem exists_splitOn_append (rest : List Char) : ∀ {start : List Char}, '\n' ∉ start →
    ∃ more others, (start ++ rest).splitOn '\n' = (start ++ more) :: others
  | [], _ => List.exists_cons_of_ne_nil (List.splitOn_ne_nil '\n' rest)
  | c :: start, h => by
    rw [List.mem_cons, not_or] at h
    obtain ⟨more, others, ih⟩ := exists_splitOn_append rest h.2
    refine ⟨more, others, ?_⟩
    rw [List.cons_append, List.splitOn_cons_eq_if_modifyHead, ih, if_neg (by simpa using Ne.symm h.1),
      List.modifyHead_cons, List.cons_append]

namespace Position

/-! ## What a position says -/

/-- **The position names the place behind `before`.**  It counts the LFs, and the bytes in UTF-8; its line and its column lead
there by the lines of the source, so many of them whole and so many characters of the next one. -/
structure Names (p : Position) (source before : List Char) : Prop where
  breaks : p.line = before.count '\n' + 1
  leads : ∃ next, (source.splitOn '\n')[p.line - 1]? = some next ∧ 1 ≤ p.column ∧ p.column - 1 ≤ next.length ∧
    '\n' ∉ next.take (p.column - 1) ∧
    before = ((source.splitOn '\n').take (p.line - 1)).flatMap (· ++ ['\n']) ++ next.take (p.column - 1)
  bytes : p.byteOffset = (Utf8.encode before).length

theorem names_after {source before : List Char} (h : before <+: source) : (after before).Names source before := by
  obtain ⟨rest, rfl⟩ := h
  obtain ⟨lines, start, hbefore, hlines, hstart, hline, hcolumn, hbytes⟩ := follows_after before
  obtain ⟨more, others, hsplit⟩ := exists_splitOn_append rest hstart
  have hsource : (before ++ rest).splitOn '\n' = lines ++ (start ++ more) :: others := by
    rw [hbefore, List.append_assoc, splitOn_flatMap_append _ hlines, hsplit]
  refine ⟨rfl, ⟨start ++ more, ?_, ?_⟩, hbytes⟩
  · rw [hsource, hline, Nat.add_sub_cancel, List.getElem?_append_right (Nat.le_refl _), Nat.sub_self,
      List.getElem?_cons_zero]
  · rw [hsource, hline, hcolumn, Nat.add_sub_cancel, Nat.add_sub_cancel, List.take_left, List.take_left]
    exact ⟨Nat.le_add_left 1 _, by simp, hstart, hbefore⟩

/-! ## The order of positions -/

/-- Line and column, the line first. -/
def lineColumn (p : Position) : ℕ ×ₗ ℕ := toLex (p.line, p.column)

theorem lineColumn_lt_append (before : List Char) {more : List Char} (hne : more ≠ []) :
    (after before).lineColumn < (after (before ++ more)).lineColumn := by
  rw [lineColumn, lineColumn, Prod.Lex.toLex_lt_toLex]
  by_cases hbreak : '\n' ∈ more
  · -- a line ends in between
    have := List.count_pos_iff.2 hbreak
    left
    simp only [after, List.count_append]
    omega
  · have hcount : more.count '\n' = 0 := List.count_eq_zero.2 hbreak
    have hlength := List.length_pos_iff.2 hne
    have hline : ∀ c ∈ more.reverse, (c != '\n') = true := by
      intro c hc
      rw [bne_iff_ne]
      rintro rfl
      exact hbreak (List.mem_reverse.1 hc)
    right
    simp only [after, List.count_append, hcount, Nat.add_zero, List.reverse_append,
      List.takeWhile_append_of_pos hline, List.length_append, List.length_reverse, true_and]
    omega

theorem byteOffset_lt_append (before : List Char) {more : List Char} (hne : more ≠ []) :
    (after before).byteOffset < (after (before ++ more)).byteOffset := by
  have := utf8Length_pos hne
  simp only [after, utf8Length_append]
  omega

/-- What grows with every character grows with the index, up to the end of the source. -/
theorem strictMonoOn_after {α : Type} [Preorder α] {f : Position → α}
    (h : ∀ (before : List Char) {more : List Char}, more ≠ [] → f (after before) < f (after (before ++ more)))
    (source : List Char) : StrictMonoOn (fun i => f (after (source.take i))) (Set.Iic source.length) := by
  intro i _ j hj hlt
  obtain ⟨more, hmore⟩ : source.take i <+: source.take j := List.take_prefix_take_left (Nat.le_of_lt hlt)
  have hne : more ≠ [] := by
    rintro rfl
    have hlength := congrArg List.length hmore
    rw [List.append_nil, List.length_take, List.length_take, Nat.min_eq_left hj] at hlength
    omega
  show f (after (source.take i)) < f (after (source.take j))
  rw [← hmore]
  exact h (source.take i) hne

theorem strictMonoOn_lineColumn (source : List Char) :
    StrictMonoOn (fun i => (after (source.take i)).lineColumn) (Set.Iic source.length) :=
  strictMonoOn_after lineColumn_lt_append source

theorem strictMonoOn_byteOffset (source : List Char) :
    StrictMonoOn (fun i => (after (source.take i)).byteOffset) (Set.Iic source.length) :=
  strictMonoOn_after byteOffset_lt_append source

/-! ## Indices -/

theorem clamp_mem (source : List Char) (index : Int) : clamp source index ∈ Set.Iic source.length :=
  Nat.min_le_right _ _

theorem clamp_eq (source : List Char) (index : Int) :
    (clamp source index : Int) = max 0 (min index source.length) := by
  rw [clamp]
  omega

/-- **Line and column, and the byte offset, name one place in the source**, that of the index moved into it.  Of two
indices the one that lies before the other there has the smaller coordinates, and only the same place has the same. -/
theorem locate_names (source : List Char) (index : Int) :
    (clamp source index : Int) = max 0 (min index source.length) ∧
    (locate source index).Names source (source.take (clamp source index)) ∧
    ∀ other : Int,
      (clamp source index < clamp source other ↔
        (locate source index).lineColumn < (locate source other).lineColumn) ∧
      (clamp source index = clamp source other ↔
        (locate source index).lineColumn = (locate source other).lineColumn) ∧
      (clamp source index < clamp source other ↔
        (locate source index).byteOffset < (locate source other).byteOffset) ∧
      (clamp source index = clamp source other ↔
        (locate source index).byteOffset = (locate source other).byteOffset) := by
  simp only [locate_eq_after]
  refine ⟨clamp_eq source index, names_after (List.take_prefix _ source), fun other => ?_⟩
  have hi := clamp_mem source index
  have hj := clamp_mem source other
  have hplace := strictMonoOn_lineColumn source
  have hbytes := strictMonoOn_byteOffset source
  refine ⟨?_, ?_, ?_, ?_⟩
  · exact (hplace.lt_iff_lt hi hj).symm
  · exact (hplace.eq_iff_eq hi hj).symm
  · exact (hbytes.lt_iff_lt hi hj).symm
  · exact (hbytes.eq_iff_eq hi hj).symm

/-- Before an LF, behind it, and beyond the end; the first character takes two bytes. -/
example : locate "é\nb".toList 1 = ⟨1, 2, 2⟩ ∧ locate "é\nb".toList 2 = ⟨2, 1, 3⟩ ∧ locate "é\nb".toList 9 = ⟨2, 2, 4⟩ ∧
    locate "é\nb".toList (-1) = ⟨1, 1, 0⟩ := by decide

end Position

end Offside
