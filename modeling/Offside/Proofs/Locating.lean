import Offside.Proofs.Pointing

/-!
# The line of a fault

Two notions of a line meet in the position of a fault.  The lines of a source end at every break, LF, CRLF or a lone CR;
a position counts LFs.  In front of a line of the source stand the lines before it with their breaks (`Spelled.before_line`),
and of these breaks all have an LF at their end but the lone CR.  So a position is short of the number of the line by the
number of lone CRs before it.
-/
namespace Offside

/-! ## What is in front of a line -/

/-- Lines with their breaks behind them. -/
def withBreaks : List Line → List (List Char) → List Char
  | line :: lines, b :: breaks => line.text ++ b ++ withBreaks lines breaks
  | _, _ => []

def breaksOf (ws : List (Char × List Char)) : List (List Char) := (ws.filter fun w => w.1 == '\n').map Prod.snd

theorem breaksOf_break (word : List Char) (ws : List (Char × List Char)) :
    breaksOf (('\n', word) :: ws) = word :: breaksOf ws := rfl

theorem breaksOf_other {c : Char} (hc : c ≠ '\n') (word : List Char) (ws : List (Char × List Char)) :
    breaksOf ((c, word) :: ws) = breaksOf ws := by
  rw [breaksOf, List.filter_cons_of_neg (by simpa using hc)]
  rfl

/-- **In front of a line stand the lines before it.**  The numbers of lines and breaks are those of
`Spelled.flatten_lines`, so each of these lines has its break. -/
theorem Spelled.before_line : ∀ {ws : List (Char × List Char)} (i k : Nat) {line : Line}, Spelled ws →
    (splitLines (i + (unspell ws).length) (placeSpelled i ws))[k]? = some line →
      k ≤ (breaksOf ws).length ∧
      withBreaks ((splitLines (i + (unspell ws).length) (placeSpelled i ws)).take k) (breaksOf ws) <+: unspell ws ∧
      line.offset = i +
        (withBreaks ((splitLines (i + (unspell ws).length) (placeSpelled i ws)).take k) (breaksOf ws)).length
  | [], i, 0, line, _, hl => by
    cases hl
    exact ⟨Nat.zero_le _, List.nil_prefix, rfl⟩
  | [], i, k + 1, line, _, hl => by cases hl
  | (c, word) :: ws, i, k, line, h, hl => by
    have hcons : unspell ((c, word) :: ws) = word ++ unspell ws := rfl
    have ih := fun k => @Spelled.before_line ws (i + word.length) k line h.tail
    rw [length_unspell_cons, ← Nat.add_assoc, placeSpelled] at hl ⊢
    simp only at hl ⊢
    generalize hps : placeSpelled (i + word.length) ws = ps at hl ih ⊢
    generalize hstop : i + word.length + (unspell ws).length = stop at hl ih ⊢
    by_cases hc : c = '\n'
    · subst hc
      rw [splitLines_cons_break] at hl ⊢
      cases k with
      | zero =>
        cases hl
        exact ⟨Nat.zero_le _, List.nil_prefix, rfl⟩
      | succ k =>
        obtain ⟨hk, hpre, hoff⟩ := ih k hl
        rw [breaksOf_break, List.take_succ_cons, withBreaks, List.nil_append, hcons]
        refine ⟨Nat.succ_le_succ hk, (List.prefix_append_right_inj word).2 hpre, ?_⟩
        rw [List.length_append]
        omega
    · obtain ⟨first, lines, hs, hsplit⟩ := splitLines_cons_of_ne stop hc i ps
      have hword : word = [c] := h.itself _ List.mem_cons_self hc
      rw [hsplit] at hl ⊢
      rw [hs] at ih
      rw [breaksOf_other hc]
      cases k with
      | zero =>
        cases hl
        exact ⟨Nat.zero_le _, List.nil_prefix, rfl⟩
      | succ k =>
        obtain ⟨hk, hpre, hoff⟩ := ih (k + 1) hl
        rw [List.take_succ_cons] at hpre hoff ⊢
        cases hb : breaksOf ws with
        | nil =>
          rw [hb] at hk
          cases hk
        | cons b breaks =>
          rw [hb] at hk hpre hoff
          rw [withBreaks] at hpre hoff ⊢
          rw [hcons, hword]
          refine ⟨hk, ?_, ?_⟩
          · rw [List.cons_append, List.cons_append, List.singleton_append, List.cons_prefix_cons]
            exact ⟨rfl, hpre⟩
          · rw [hword] at hoff
            simp only [List.length_append, List.length_cons, List.length_nil] at hoff ⊢
            omega

/-! ## Counting breaks -/

theorem withBreaks_take : ∀ (lines : List Line) (breaks : List (List Char)),
    withBreaks lines (breaks.take lines.length) = withBreaks lines breaks
  | [], _ => by simp [withBreaks]
  | _ :: _, [] => rfl
  | line :: lines, b :: breaks => by
    rw [List.length_cons, List.take_succ_cons, withBreaks, withBreaks, withBreaks_take lines breaks]

/-- How a break may be written. -/
def IsBreak (b : List Char) : Prop := b = ['\n'] ∨ b = ['\r', '\n'] ∨ b = ['\r']

theorem IsBreak.count {b : List Char} (h : IsBreak b) : b.count '\n' + [b].count ['\r'] = 1 := by
  rcases h with rfl | rfl | rfl <;> decide

theorem IsBreak.getLast?_iff {b : List Char} (h : IsBreak b) : b.getLast? = some '\n' ↔ b ≠ ['\r'] := by
  rcases h with rfl | rfl | rfl <;> decide

theorem count_withBreaks : ∀ {lines : List Line} {breaks : List (List Char)}, lines.length = breaks.length →
    (∀ line ∈ lines, '\n' ∉ line.text) → (∀ b ∈ breaks, IsBreak b) →
      (withBreaks lines breaks).count '\n' + breaks.count ['\r'] = breaks.length
  | [], [], _, _, _ => rfl
  | line :: lines, b :: breaks, hlength, hlines, hbreaks => by
    rw [List.forall_mem_cons] at hlines hbreaks
    have ih := count_withBreaks (Nat.succ.inj hlength) hlines.2 hbreaks.2
    have hb := hbreaks.1.count
    have htext : line.text.count '\n' = 0 := List.count_eq_zero.2 hlines.1
    rw [withBreaks, List.count_append, List.count_append, List.length_cons, ← List.singleton_append (x := b),
      List.count_append]
    omega

theorem withBreaks_concat (line : Line) (b : List Char) : ∀ {lines : List Line} {breaks : List (List Char)},
    lines.length = breaks.length →
      withBreaks (lines ++ [line]) (breaks ++ [b]) = withBreaks lines breaks ++ (line.text ++ b)
  | [], [], _ => by simp [withBreaks]
  | first :: lines, b' :: breaks, hlength => by
    have ih := withBreaks_concat line b (Nat.succ.inj hlength)
    rw [List.cons_append, List.cons_append, withBreaks, withBreaks, ih, ← List.append_assoc]

theorem getLast?_withBreaks {lines : List Line} {breaks : List (List Char)} (hlength : lines.length = breaks.length)
    (hbreaks : ∀ b ∈ breaks, IsBreak b) :
    (∀ c, (withBreaks lines breaks).getLast? = some c → c = '\n') ↔ breaks.getLast? ≠ some ['\r'] := by
  rcases List.eq_nil_or_concat breaks with rfl | ⟨front, b, rfl⟩
  · obtain rfl := List.eq_nil_of_length_eq_zero hlength
    simp [withBreaks]
  · rw [List.concat_eq_append] at hlength hbreaks ⊢
    rcases List.eq_nil_or_concat lines with rfl | ⟨before, line, rfl⟩
    · simp at hlength
    · rw [List.concat_eq_append] at hlength ⊢
      have hfront : before.length = front.length := by simpa using hlength
      have hb : IsBreak b := hbreaks b (by simp)
      rw [withBreaks_concat line b hfront, List.getLast?_append, List.getLast?_append, List.getLast?_concat, ne_eq,
        Option.some.injEq, ← ne_eq, ← hb.getLast?_iff]
      rcases hb with rfl | rfl | rfl <;> simp

/-! ## Positions -/

theorem column_after {before : List Char} :
    (Position.after before).column = 1 ↔ ∀ c, before.getLast? = some c → c = '\n' := by
  rw [← List.head?_reverse, Position.after]
  simp only
  cases before.reverse with
  | nil => simp
  | cons c cs =>
    by_cases hc : c = '\n'
    · simp [hc]
    · simp [hc]

/-- **The position of a line**, as far as its number and its beginning are concerned. -/
theorem locate_line {source : List Char} {k : Nat} {line : Line} (hl : (prepare false source)[k]? = some line) :
    (Position.locate source line.offset).line + ((lineBreaks source).take k).count ['\r'] = k + 1 ∧
      ((Position.locate source line.offset).column = 1 ↔ ((lineBreaks source).take k).getLast? ≠ some ['\r']) := by
  have htexts : ∀ l ∈ (prepare false source).take k, '\n' ∉ l.text :=
    fun l hmem => not_mem_of_mem_splitLines (List.mem_of_mem_take hmem)
  have hk : ((prepare false source).take k).length = k := by
    rw [List.length_take]
    have := (List.getElem?_eq_some_iff.1 hl).1
    omega
  rw [prepare_eq_spelled] at hl htexts hk
  obtain ⟨hle, hpre, hoff⟩ := (spelled_spell source).before_line 0 k hl
  generalize hlines : (splitLines (0 + (unspell (spell source)).length) (placeSpelled 0 (spell source))).take k = lines
    at hpre hoff htexts hk
  rw [unspell_spell] at hpre
  have hbreaks : ∀ b ∈ (lineBreaks source).take k, IsBreak b := fun b hb => mem_lineBreaks (List.mem_of_mem_take hb)
  have hlength : lines.length = ((lineBreaks source).take k).length := by
    rw [hk, List.length_take]
    exact (Nat.min_eq_left hle).symm
  have hbefore : source.take (Position.clamp source line.offset) = withBreaks lines ((lineBreaks source).take k) := by
    have hclamp : Position.clamp source line.offset = (withBreaks lines (breaksOf (spell source))).length := by
      have := hpre.length_le
      rw [Position.clamp, Int.toNat_natCast]
      omega
    rw [hclamp, ← List.prefix_iff_eq_take.1 hpre, ← withBreaks_take, hk]
    rfl
  rw [Position.locate_eq_after, hbefore, column_after, getLast?_withBreaks hlength hbreaks]
  refine ⟨?_, Iff.rfl⟩
  have hcount := count_withBreaks hlength htexts hbreaks
  rw [← hlength, hk] at hcount
  simp only [Position.after]
  omega

/-- **A fault is placed short of its line by the lone CRs before it.**  The fault of a compilation has the offset of a line
of the source; its position names that line and its first column exactly if no break before the line is a lone CR. -/
theorem compile_fault_position {o : Options} (ho : o.compact = false) {source : List Char} {fault : Fault}
    (h : compile o source = .error fault) :
    (∃ (k : Nat) (line : Line), (prepare false source)[k]? = some line ∧ line.offset = fault.index) ∧
    ∀ (k : Nat) (line : Line), (prepare false source)[k]? = some line → line.offset = fault.index →
      (fault.position source).line + ((lineBreaks source).take k).count ['\r'] = k + 1 ∧
      ((fault.position source).column = 1 ↔ ((lineBreaks source).take k).getLast? ≠ some ['\r']) ∧
      ((fault.position source).line = k + 1 ∧ (fault.position source).column = 1 ↔
        ['\r'] ∉ (lineBreaks source).take k) := by
  constructor
  · obtain ⟨-, -, -, line, -, -, hl, -, hi, -⟩ := exists_line_of_compile h
    rw [ho] at hl
    obtain ⟨k, hk⟩ := List.getElem?_of_mem hl
    exact ⟨k, line, hk, hi⟩
  · intro k line hl hi
    have hplace := locate_line hl
    rw [hi] at hplace
    refine ⟨hplace.1, hplace.2, ?_⟩
    rw [← List.count_eq_zero, Fault.position, hplace.2]
    constructor
    · rintro ⟨hline, -⟩
      omega
    · intro hnone
      refine ⟨by omega, fun hlast => ?_⟩
      have hmem := List.count_pos_iff.2 (List.mem_of_getLast? hlast)
      omega

/-- A source with all three breaks: the lone CR before the fault counts for nothing, and an LF is right in front of it. -/
theorem compile_fault_position_mixed :
    let source := "a\r\nb\rc\n$d".toList
    let fault : Fault := { cause := .malformedVariable, index := 7 }
    compile {} source = .error fault ∧ (prepare false source)[3]? = some { text := "$d".toList, offset := 7 } ∧
      (lineBreaks source).take 3 = [['\r', '\n'], ['\r'], ['\n']] ∧
      (fault.position source).line + 1 = 3 + 1 ∧ (fault.position source).column = 1 := by
  intro source fault
  have h : compile {} source = .error fault := (@compile_error_iff {} source fault).2 (by decide +revert)
  have hline : (prepare false source)[3]? = some { text := "$d".toList, offset := 7 } := by decide +revert
  have hbreaks : (lineBreaks source).take 3 = [['\r', '\n'], ['\r'], ['\n']] := by decide +revert
  obtain ⟨hcount, hcolumn, -⟩ := (compile_fault_position rfl h).2 3 _ hline rfl
  rw [hbreaks] at hcount hcolumn
  exact ⟨h, hline, hbreaks, hcount, hcolumn.2 (by decide)⟩

/-- **Behind a lone CR a fault is not placed in its line**: this one is in the second line. -/
theorem position_behind_return :
    let source := "a\r$b".toList
    let fault : Fault := { cause := .malformedVariable, index := 2 }
    compile {} source = .error fault ∧ (prepare false source)[1]? = some { text := "$b".toList, offset := 2 } ∧
      (fault.position source).line = 1 ∧ (fault.position source).column = 3 := by
  intro source fault
  have h : compile {} source = .error fault := (@compile_error_iff {} source fault).2 (by decide +revert)
  exact ⟨h, by decide +revert, by decide +revert, by decide +revert⟩

end Offside
