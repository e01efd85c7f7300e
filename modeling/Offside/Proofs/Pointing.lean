import Offside.Proofs.Offsets
import Offside.Proofs.Refusal

/-!
# Where faults point

A fault has the offset of a line that is not blank, and the source has there what the line
begins with (`prepare_head?`).  It is the first line of the statement that is refused, or the
line that was about to be joined to it (`Reader.Refuses.points`).  What its position says is told by
the text in front of it (`Position.locate_eq_after`).
-/
namespace Offside

/-! ## The beginning of a line -/

theorem mem_of_splitLines {stop : Nat} {c : Char} : ∀ {ps : List Placed} {line : Line}, line ∈ splitLines stop ps →
    line.text.head? = some c → (c, line.offset) ∈ ps
  | [], line, hl, hc => by
    rw [List.mem_singleton.1 hl] at hc
    cases hc
  | (d, i) :: ps, line, hl, hc => by
    by_cases hd : d = '\n'
    · subst hd
      rw [splitLines_cons_break] at hl
      rcases List.mem_cons.1 hl with rfl | hl
      · cases hc
      · exact List.mem_cons_of_mem _ (mem_of_splitLines hl hc)
    · obtain ⟨first, lines, hs, hcons⟩ := splitLines_cons_of_ne stop hd i ps
      rw [hcons] at hl
      rcases List.mem_cons.1 hl with rfl | hl
      · cases hc
        exact List.mem_cons_self
      · have hmem : line ∈ splitLines stop ps := hs ▸ List.mem_cons_of_mem first hl
        exact List.mem_cons_of_mem _ (mem_of_splitLines hmem hc)

theorem not_mem_of_mem_splitLines {stop : Nat} {ps : List Placed} {line : Line} (hl : line ∈ splitLines stop ps) :
    '\n' ∉ line.text := by
  have htext : line.text ∈ (splitLines stop ps).map Line.text := List.mem_map_of_mem hl
  rw [splitLines_texts] at htext
  exact not_mem_of_mem_splitOn htext

/-- Only a line break is read as something else than what is written. -/
theorem getElem?_of_charAt? {source : List Char} {i : Nat} {c : Char} (h : charAt? source i = some c) (hc : c ≠ '\n') :
    source[i]? = some c := by
  unfold charAt? at h
  split at h
  · cases h
    exact absurd rfl hc
  · split at h
    · cases h
    · exact h

/-- **A line that is not blank begins with what stands at its offset**, comments taken out or not. -/
theorem prepare_head? {strip : Bool} {source : List Char} {line : Line} (hl : line ∈ prepare strip source)
    (hb : allBlank line.text = false) : line.offset < source.length ∧ source[line.offset]? = line.text.head? := by
  cases htext : line.text with
  | nil =>
    rw [htext] at hb
    cases hb
  | cons c cs =>
    have hkept : (c, line.offset) ∈ kept strip source := mem_of_splitLines hl (by rw [htext]; rfl)
    have hread : charAt? source line.offset = some c :=
      charAt?_of_mem_placeFrom ((kept_sublist strip source).subset hkept) [] rfl fun _ => by simp
    have hbreak : c ≠ '\n' := by
      rintro rfl
      exact not_mem_of_mem_splitLines hl (by rw [htext]; exact List.mem_cons_self)
    have hget := getElem?_of_charAt? hread hbreak
    exact ⟨(List.getElem?_eq_some_iff.1 hget).1, hget⟩

/-! ## The line of a fault -/

namespace Reader

theorem Enters.unique {r : Reader} {line : Line} {indent indent' : Nat} {frames frames' : Frames}
    {ind ind' : Indentation} (h : r.Enters line indent frames ind) (h' : r.Enters line indent' frames' ind') :
    indent = indent' ∧ ind = ind' := by
  obtain ⟨measured, hc, he⟩ := h
  obtain ⟨measured', hc', he'⟩ := h'
  rw [hc, Prod.mk.injEq, Except.ok.injEq] at hc'
  obtain ⟨rfl, rfl⟩ := hc'
  rw [he, Prod.mk.injEq, Prod.mk.injEq] at he'
  exact ⟨rfl, he'.2.1⟩

/-- A fault is met while the statement that begins with `first` is continued. -/
def FailsJoining (r : Reader) (first : Line) (rest : List Line) (fault : Fault) : Prop :=
  ∃ indent frames ind after, r.Enters first indent frames ind ∧
    joinLines ind indent (trim first.text) rest = (after, .error fault)

/-- The statement that begins with `first` has been joined up to `line`, whose leading run does not go with what the
file has used so far. -/
def MixesAt (r : Reader) (first : Line) (rest : List Line) (line : Line) : Prop :=
  ∃ indent frames ind after joined, r.Enters first indent frames ind ∧
    Arrives indent ind (trim first.text) rest after joined line ∧ after.measure line.text = .error .mixedIndentation

theorem Refuses.points {compact : Bool} {r : Reader} {first : Line} {rest : List Line} {fault : Fault}
    (h : r.Refuses compact first rest fault) (hb : allBlank first.text = false) :
    ∃ line ∈ first :: rest, allBlank line.text = false ∧ line.offset = fault.index ∧
      (((∀ found, ¬r.FailsJoining first rest found) ∧ line = first) ∨
        (r.FailsJoining first rest fault ∧ fault.cause = .mixedIndentation ∧ r.MixesAt first rest line)) := by
  cases h with
  | measuring hc =>
    refine ⟨first, List.mem_cons_self, hb, rfl, Or.inl ⟨?_, rfl⟩⟩
    rintro found ⟨indent, frames, ind, after, ⟨measured, hc', -⟩, -⟩
    rw [hc] at hc'
    simp at hc'
  | entering hc he =>
    refine ⟨first, List.mem_cons_self, hb, rfl, Or.inl ⟨?_, rfl⟩⟩
    rintro found ⟨indent, frames, ind, after, ⟨measured, hc', he'⟩, -⟩
    rw [hc, Prod.mk.injEq, Except.ok.injEq] at hc'
    obtain ⟨rfl, rfl⟩ := hc'
    rw [he] at he'
    simp at he'
  | joining hin hj =>
    obtain ⟨joined, line, harrives, hm, rfl⟩ := joinLines_error hj
    have hmem : line ∈ rest := List.mem_of_getElem? harrives.next
    refine ⟨line, List.mem_cons_of_mem first hmem, harrives.visible, rfl, Or.inr ⟨⟨_, _, _, _, hin, hj⟩, rfl, ?_⟩⟩
    exact ⟨_, _, _, _, joined, hin, harrives, hm⟩
  | reading hin hj _ =>
    refine ⟨first, List.mem_cons_self, hb, rfl, Or.inl ⟨?_, rfl⟩⟩
    rintro found ⟨indent, frames, ind, after, hin', hj'⟩
    obtain ⟨rfl, rfl⟩ := hin.unique hin'
    rw [hj] at hj'
    simp at hj'

end Reader

theorem exists_line_of_compile {o : Options} {source : List Char} {fault : Fault}
    (h : compile o source = .error fault) :
    ∃ r first rest line, Begins o.compact (prepare o.compact source) r first rest ∧
      (r.step o.compact first rest).2 = .error fault ∧
      line ∈ prepare o.compact source ∧ allBlank line.text = false ∧ line.offset = fault.index ∧
      (((∀ found, ¬r.FailsJoining first rest found) ∧ line = first) ∨
        (r.FailsJoining first rest fault ∧ fault.cause = .mixedIndentation ∧ r.MixesAt first rest line)) := by
  obtain ⟨after, hread⟩ := readLines_of_compile h
  obtain ⟨r, first, rest, hbegins, hs⟩ := readLines_error hread
  obtain ⟨line, hmem, hb, hi, hpoints⟩ := (Reader.refuses_of_step hs).points hbegins.visible
  have hstep : (r.step o.compact first rest).2 = .error fault := by rw [hs]
  exact ⟨r, first, rest, line, hbegins, hstep, hbegins.subset hmem, hb, hi, hpoints⟩

theorem index_lt_of_compile {o : Options} {source : List Char} {fault : Fault} (h : compile o source = .error fault) :
    fault.index < source.length := by
  obtain ⟨-, -, -, line, -, -, hl, hb, hi, -⟩ := exists_line_of_compile h
  exact hi ▸ (prepare_head? hl hb).1

/-- **Every fault points at a line.**  Its index lies in the source and is the offset of a line that is not blank, and
the source has there what the line begins with.  The line is the first one of the statement that is refused, unless the
fault is met while that is continued: then it is the one that was measured to go on, and begins with the wrong
blanks. -/
theorem compile_fault_line {o : Options} {source : List Char} {fault : Fault} (h : compile o source = .error fault) :
    fault.index < source.length ∧
    ∃ r first rest line, Begins o.compact (prepare o.compact source) r first rest ∧
      (r.step o.compact first rest).2 = .error fault ∧
      line ∈ prepare o.compact source ∧ allBlank line.text = false ∧ line.offset = fault.index ∧
      source[fault.index]? = line.text.head? ∧
      (((∀ found, ¬r.FailsJoining first rest found) ∧ line = first) ∨
        (r.FailsJoining first rest fault ∧ fault.cause = .mixedIndentation ∧ r.MixesAt first rest line)) := by
  obtain ⟨r, first, rest, line, hbegins, hstep, hl, hb, hi, hpoints⟩ := exists_line_of_compile h
  obtain ⟨hlt, hhead⟩ := prepare_head? hl hb
  rw [hi] at hlt hhead
  exact ⟨hlt, r, first, rest, line, hbegins, hstep, hl, hb, hi, hhead, hpoints⟩

/-- Behind a comment that is taken out and line breaks of two characters, a continuation that begins with a tab. -/
theorem compile_fault_line_continued :
    let o : Options := { compact := true }
    let source := "/* x */a\r\n  b,\r\n\tc".toList
    let fault : Fault := { cause := .mixedIndentation, index := 16 }
    compile o source = .error fault ∧ 16 < source.length ∧
    ∃ r first rest line, Begins true (prepare true source) r first rest ∧
      (r.step true first rest).2 = .error fault ∧ line ∈ prepare true source ∧ allBlank line.text = false ∧
      line.offset = 16 ∧ source[16]? = line.text.head? ∧
      (((∀ found, ¬r.FailsJoining first rest found) ∧ line = first) ∨
        (r.FailsJoining first rest fault ∧ fault.cause = .mixedIndentation ∧ r.MixesAt first rest line)) := by
  intro o source fault
  have h : compile o source = .error fault := compile_error_iff.2 (by decide +revert)
  exact ⟨h, compile_fault_line h⟩

/-! ## Positions -/

namespace Position

/-- The place right after `before`. -/
def after (before : List Char) : Position :=
  { line := before.count '\n' + 1
    column := (before.reverse.takeWhile (· != '\n')).length + 1
    byteOffset := utf8Length before }

theorem length_takeWhile_break : ∀ cs : List Char,
    (cs.takeWhile (· != '\n')).length = (cs.findIdx? (· == '\n')).getD cs.length
  | [] => rfl
  | c :: cs => by
    rw [List.takeWhile_cons, List.findIdx?_cons, List.length_cons]
    by_cases hc : c = '\n'
    · simp [hc]
    · have ih := length_takeWhile_break cs
      simp only [bne_iff_ne, ne_eq, hc, not_false_eq_true, if_true, beq_iff_eq, if_false, List.length_cons, ih]
      cases cs.findIdx? (· == '\n') <;> rfl

/-- The column counts back to the last line break. -/
theorem column_lastBreak? {source : List Char} {stop : Nat} (h : stop ≤ source.length) :
    stop - ((lastBreak? source stop).map (· + 1)).getD 0 = ((source.take stop).reverse.takeWhile (· != '\n')).length := by
  have hlength : (source.take stop).reverse.length = stop := by rw [List.length_reverse, List.length_take, Nat.min_eq_left h]
  rw [length_takeWhile_break, hlength, lastBreak?]
  cases hfind : (source.take stop).reverse.findIdx? (· == '\n') with
  | none => simp
  | some i =>
    have hlt := (List.findIdx?_eq_some_iff_findIdx_eq.1 hfind).1
    simp only [Option.map_some, Option.getD_some]
    omega

/-- **A position is told by the text in front of it.**  The line counts up to the index moved into the source, the byte offset
up to an index that may lie beyond it, where there is nothing more to count. -/
theorem locate_eq_after (source : List Char) (index : Int) :
    locate source index = after (source.take (clamp source index)) := by
  have hle : clamp source index ≤ source.length := Nat.min_le_right _ _
  have hbytes : source.take (clamp source index) = source.take index.toNat := by
    rw [clamp, ← List.take_take, List.take_length]
  simp only [locate, lineAndColumn, bytesBefore, after, column_lastBreak? hle, ← hbytes]

end Position

end Offside
