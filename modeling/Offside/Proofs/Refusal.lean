import Offside.Compile
import Offside.Proofs.Reading

/-!
# Refused runs

A refused run reads some statements, comes to the first line of one more (`Begins`) and is
refused there, in one of four ways (`Reader.Refuses`).  Three causes never come up.  The
outermost block is the file itself, so every indent returns to some block; a step is never
zero; and a statement is trimmed before its colon is looked for, so that a blank right behind
the colon has something behind it (`Reader.Refuses.arises`).
-/
namespace Offside

/-- The causes a compilation can end with. -/
def Cause.arising : List Cause :=
  [mixedIndentation, offStep, badJump, unexpectedIndent, malformedVariable, emptyVariableName, emptyAtRuleName,
    emptyProperty]

/-! ## Measuring and entering -/

namespace Indentation

theorem measureFrom_error {ind : Indentation} {cause : Cause} : ∀ {text : List Char} {total : Nat}
    {used : Option Style}, ind.measureFrom total used text = .error cause → cause = .mixedIndentation
  | [], _, _, h => by cases h
  | c :: cs, total, used, h => by
    unfold measureFrom at h
    split at h
    · cases h
    · split at h
      · exact measureFrom_error h
      · cases h
        rfl

theorem checkStep_error {ind : Indentation} {indent : Nat} {cause : Cause} (hpos : ∀ s, ind.step = some s → 0 < s)
    (h : ind.checkStep indent = .error cause) : cause = .offStep := by
  unfold checkStep at h
  split at h
  · cases h
  · rename_i s hs
    have hne : s ≠ 0 := Nat.ne_of_gt (hpos s hs)
    rw [if_neg hne] at h
    split at h
    · cases h
    · split at h
      · cases h
      · cases h
        rfl

/-- **A refused line, unpacked**: its leading run could not be measured, or its indent does not fit the step. -/
theorem classify_error {ind learned : Indentation} {checked : Bool} {text : List Char} {cause : Cause}
    (h : ind.classify checked text = (learned, .error cause)) :
    (cause = .mixedIndentation ∧ learned = ind ∧ ind.measure text = .error cause) ∨
      (checked = true ∧ ∃ indent, learned.checkStep indent = .error cause) := by
  unfold classify at h
  split at h
  · rename_i found hm
    simp only [Prod.mk.injEq, Except.error.injEq] at h
    obtain ⟨rfl, rfl⟩ := h
    exact Or.inl ⟨measureFrom_error hm, rfl, hm⟩
  · rename_i indent used hm
    simp only at h
    split at h
    · rename_i found hc
      simp only [Prod.mk.injEq, Except.error.injEq] at h
      obtain ⟨rfl, rfl⟩ := h
      cases checked with
      | false => simp at hc
      | true => exact Or.inr ⟨rfl, indent, by simpa using hc⟩
    · simp at h

end Indentation

namespace Frames

/-- The outermost block is not indented, so closing ends with a block that is not deeper than the line. -/
theorem closeFrom_top_le {step : Nat} (indent : Nat) : ∀ {top : Frame} {below : List Frame},
    levelled step (top :: below) → (closeFrom indent top below).top.indent ≤ indent
  | top, [], h => by
    have htop : top.indent = 0 * step := h.1
    simp [closeFrom, htop]
  | top, next :: below, h => by
    unfold closeFrom
    split
    · exact closeFrom_top_le indent h.2
    · rename_i hlt
      exact Nat.not_lt.1 hlt

theorem Aligned.enter_error {frames kept : Frames} {ind learned : Indentation} {indent : Nat} {cause : Cause}
    (ha : frames.Aligned ind) (h : frames.enter ind indent = (kept, learned, .error cause)) :
    cause = .badJump ∨ cause = .unexpectedIndent := by
  have hle : (frames.close indent).top.indent ≤ indent := closeFrom_top_le indent ha.levels
  simp only [Frames.enter] at h
  split at h
  · split at h
    · split at h
      · simp at h
      · simp only [Prod.mk.injEq, Except.error.injEq] at h
        exact Or.inl h.2.2.symm
    · simp only [Prod.mk.injEq, Except.error.injEq] at h
      exact Or.inr h.2.2.symm
  · rename_i hlt
    rw [if_pos (by omega)] at h
    simp at h

end Frames

/-! ## Joining -/

/-- **Joining arrives at `line`**: the lines before it have been joined, and the text still ends with a comma. -/
structure Arrives (indent : Nat) (ind : Indentation) (text : List Char) (lines : List Line) (after : Indentation)
    (joined : Joined) (line : Line) : Prop where
  joins : joinLines ind indent text (lines.take joined.lines) = (after, .ok joined)
  next : lines[joined.lines]? = some line
  comma : joined.text.getLast? = some ','
  visible : allBlank line.text = false

/-- **Joining is refused by the line it arrives at**, and only because of what that line's leading run is made of. -/
theorem joinLines_error {indent : Nat} : ∀ {lines : List Line} {ind after : Indentation} {text : List Char}
    {fault : Fault}, joinLines ind indent text lines = (after, .error fault) →
      ∃ joined line, Arrives indent ind text lines after joined line ∧
        after.measure line.text = .error .mixedIndentation ∧
        fault = { cause := .mixedIndentation, index := line.offset }
  | [], ind, after, text, fault, h => by simp [joinLines] at h
  | line :: lines, ind, after, text, fault, h => by
    by_cases hgo : text.getLast? = some ',' ∧ allBlank line.text = false
    · obtain ⟨hcomma, hline⟩ := hgo
      simp only [joinLines, hcomma, beq_self_eq_true, isEmpty_trim, hline, Bool.not_false, Bool.and_self,
        ↓reduceIte] at h
      cases hc : ind.classify false line.text with
      | mk learned result =>
        rw [hc] at h
        cases result with
        | error cause =>
          simp only [Prod.mk.injEq, Except.error.injEq] at h
          obtain ⟨rfl, rfl⟩ := h
          rcases Indentation.classify_error hc with ⟨rfl, rfl, hm⟩ | ⟨hfalse, -⟩
          · refine ⟨{ text := text, lines := 0 }, line, ⟨?_, rfl, hcomma, hline⟩, hm, rfl⟩
            simp [joinLines]
          · cases hfalse
        | ok found =>
          simp only at h
          split at h
          · rename_i hfound
            cases hj : joinLines learned indent (joinText text (trim line.text)) lines with
            | mk later result =>
              rw [hj] at h
              cases result with
              | ok more => simp at h
              | error found =>
                simp only [Prod.mk.injEq, Except.error.injEq] at h
                obtain ⟨rfl, rfl⟩ := h
                obtain ⟨joined, last, ⟨hjoins, hnext, hlast, hvisible⟩, hm, hf⟩ := joinLines_error hj
                refine ⟨{ joined with lines := joined.lines + 1 }, last, ⟨?_, hnext, hlast, hvisible⟩, hm, hf⟩
                simp [joinLines, hcomma, hline, hc, hfound, hjoins]
          · simp at h
    · simp [joinLines, hgo] at h

/-! ## Statements -/

namespace Statement

theorem readDefine_error {main : List Char} {comment : Option Comment} {cause : Cause}
    (h : readDefine main comment = .error cause) : cause = .malformedVariable ∨ cause = .emptyVariableName := by
  unfold readDefine at h
  split at h
  · cases h
    exact Or.inl rfl
  · split at h
    · cases h
      exact Or.inr rfl
    · cases h

theorem readAtRule_error {main : List Char} {comment : Option Comment} {cause : Cause}
    (h : readAtRule main comment = .error cause) : cause = .emptyAtRuleName := by
  unfold readAtRule at h
  simp only at h
  split at h
  · cases h
    rfl
  · cases h

/-- What is left behind a place of a trimmed text is not all blank. -/
theorem not_blank_drop {main : List Char} (ht : trim main = main) {n : Nat} (hne : main.drop n ≠ []) :
    allBlank (main.drop n) = false := by
  have hlen : ¬main.length ≤ n := fun hle => hne (List.drop_eq_nil_of_le hle)
  have hlast : (main.drop n).getLast? = main.getLast? := by rw [List.getLast?_drop, if_neg hlen]
  obtain ⟨c, hc⟩ := Option.ne_none_iff_exists'.1 (fun hn => hne (List.getLast?_eq_none_iff.1 hn))
  rw [← Bool.not_eq_true]
  intro hall
  have hblank := allBlank_iff.1 hall c (List.mem_of_getLast? hc)
  rw [getLast?_of_trimmed ht (hlast ▸ hc)] at hblank
  cases hblank

theorem readPlain_error {main : List Char} {comment : Option Comment} {cause : Cause} (ht : trim main = main)
    (h : readPlain main comment = .error cause) : cause = .emptyProperty := by
  unfold readPlain at h
  split at h
  · cases h
  · rename_i colon _
    simp only at h
    split at h
    · rename_i hnext
      split at h
      · cases h
        rfl
      · rename_i htrim _
        -- the value begins with a blank, so there is one, and the text ends with something visible
        have hne : main.drop (colon + 1) ≠ [] := fun hnil => by simp [hnil] at hnext
        have hvisible := not_blank_drop ht hne
        rw [trim_eq_nil_iff.1 htrim] at hvisible
        cases hvisible
      · cases h
    · cases h

theorem read_error {compact : Bool} {content : List Char} {cause : Cause} (h : read compact content = .error cause) :
    cause ∈ Cause.arising := by
  have hmap : ∀ x : Except Cause Statement, x.map some = .error cause → x = .error cause := by
    intro x hx
    cases x with
    | error found =>
      cases hx
      rfl
    | ok s => cases hx
  have hmain : ∀ {main : List Char} {comment : Option Comment}, trim main = main →
      readMain main comment = .error cause → cause ∈ Cause.arising := by
    intro main comment ht hm
    unfold readMain at hm
    split at hm
    · cases hm
    · rcases readDefine_error (hmap _ hm) with rfl | rfl <;> decide
    · rw [readAtRule_error (hmap _ hm)]
      decide
    · rw [readPlain_error ht (hmap _ hm)]
      decide
  cases compact with
  | true => exact hmain (trim_trim content) h
  | false => exact hmain (trim_trim _) h

end Statement

/-! ## One refused step -/

namespace Reader

/-- The line is measured and finds its block: what is open then, and what has been learned. -/
def Enters (r : Reader) (line : Line) (indent : Nat) (frames : Frames) (ind : Indentation) : Prop :=
  ∃ measured, r.indentation.classify true line.text = (measured, .ok indent) ∧
    r.frames.enter measured indent = (frames, ind, .ok ())

/-- **How a statement is refused.** -/
inductive Refuses (compact : Bool) (r : Reader) (line : Line) (following : List Line) : Fault → Prop
  | measuring {ind : Indentation} {cause : Cause}
      (hc : r.indentation.classify true line.text = (ind, .error cause)) :
      Refuses compact r line following { cause := cause, index := line.offset }
  | entering {measured ind : Indentation} {indent : Nat} {frames : Frames} {cause : Cause}
      (hc : r.indentation.classify true line.text = (measured, .ok indent))
      (he : r.frames.enter measured indent = (frames, ind, .error cause)) :
      Refuses compact r line following { cause := cause, index := line.offset }
  | joining {ind after : Indentation} {indent : Nat} {frames : Frames} {fault : Fault}
      (hin : r.Enters line indent frames ind)
      (hj : joinLines ind indent (trim line.text) following = (after, .error fault)) :
      Refuses compact r line following fault
  | reading {ind after : Indentation} {indent : Nat} {frames : Frames} {joined : Joined} {cause : Cause}
      (hin : r.Enters line indent frames ind)
      (hj : joinLines ind indent (trim line.text) following = (after, .ok joined))
      (hs : Statement.read compact joined.text = .error cause) :
      Refuses compact r line following { cause := cause, index := line.offset }

theorem refuses_of_step {compact : Bool} {r after : Reader} {line : Line} {following : List Line} {fault : Fault}
    (h : r.step compact line following = (after, .error fault)) : r.Refuses compact line following fault := by
  simp only [step] at h
  split at h
  · rename_i hc
    simp only [Prod.mk.injEq, Except.error.injEq] at h
    rw [← h.2]
    exact .measuring hc
  · rename_i measured indent hc
    split at h
    · rename_i he
      simp only [Prod.mk.injEq, Except.error.injEq] at h
      rw [← h.2]
      exact .entering hc he
    · rename_i frames ind he
      split at h
      · rename_i hj
        simp only [Prod.mk.injEq, Except.error.injEq] at h
        rw [← h.2]
        exact .joining ⟨measured, hc, he⟩ hj
      · rename_i last joined hj
        split at h
        · rename_i hs
          simp only [Prod.mk.injEq, Except.error.injEq] at h
          rw [← h.2]
          exact .reading ⟨measured, hc, he⟩ hj hs
        · simp at h

/-- **Three causes never come up**, where the open blocks are as they should be. -/
theorem Refuses.arises {compact : Bool} {r : Reader} {line : Line} {following : List Line} {fault : Fault}
    (h : r.Refuses compact line following fault) (ha : r.frames.Aligned r.indentation) :
    fault.cause ∈ Cause.arising := by
  cases h with
  | @measuring ind cause hc =>
    show cause ∈ Cause.arising
    rcases Indentation.classify_error hc with ⟨rfl, -⟩ | ⟨-, indent, hcheck⟩
    · decide
    · rw [Indentation.checkStep_error (ha.classified hc).pos hcheck]
      decide
  | @entering measured ind indent frames cause hc he =>
    show cause ∈ Cause.arising
    rcases (ha.classified hc).enter_error he with rfl | rfl <;> decide
  | joining _ hj =>
    obtain ⟨joined, last, -, -, rfl⟩ := joinLines_error hj
    show Cause.mixedIndentation ∈ Cause.arising
    decide
  | reading _ _ hs => exact Statement.read_error hs

/-! ## Up to a statement -/

/-- **A run up to a place in the lines**: what stands before `rest` has been read or passed over. -/
inductive Reaches (compact : Bool) : Nat → Reader → List Line → Reader → List Line → Prop
  | here {r : Reader} {lines : List Line} : Reaches compact 0 r lines r lines
  | pass {skip : Nat} {r reached : Reader} {line : Line} {lines rest : List Line}
      (h : Reaches compact skip r lines reached rest) : Reaches compact (skip + 1) r (line :: lines) reached rest
  | blank {r reached : Reader} {line : Line} {lines rest : List Line} (hb : allBlank line.text = true)
      (h : Reaches compact 0 r lines reached rest) : Reaches compact 0 r (line :: lines) reached rest
  | step {skip : Nat} {r next reached : Reader} {line : Line} {lines rest : List Line}
      (hb : allBlank line.text = false) (hs : r.step compact line lines = (next, .ok skip))
      (h : Reaches compact skip next lines reached rest) : Reaches compact 0 r (line :: lines) reached rest

theorem Reaches.suffix {compact : Bool} {skip : Nat} {r reached : Reader} {lines rest : List Line}
    (h : Reaches compact skip r lines reached rest) : rest <:+ lines := by
  induction h with
  | here => exact List.suffix_rfl
  | pass _ ih => exact ih.trans (List.suffix_cons _ _)
  | blank _ _ ih => exact ih.trans (List.suffix_cons _ _)
  | step _ _ _ ih => exact ih.trans (List.suffix_cons _ _)

/-- **What every accepted step preserves holds wherever a run arrives.** -/
theorem Reaches.preserves {compact : Bool} {P : Reader → Prop} {skip : Nat} {r reached : Reader} {lines rest : List Line}
    (h : Reaches compact skip r lines reached rest)
    (hstep : ∀ (r next : Reader) (line : Line) (following : List Line) (skip : Nat), P r →
      allBlank line.text = false → r.step compact line following = (next, .ok skip) → P next)
    (hr : P r) : P reached := by
  induction h with
  | here => exact hr
  | pass _ ih => exact ih hr
  | blank _ _ ih => exact ih hr
  | step hb hs _ ih => exact ih (hstep _ _ _ _ _ hr hb hs)

theorem Reaches.sound {compact : Bool} {skip : Nat} {r reached : Reader} {lines rest : List Line}
    (h : Reaches compact skip r lines reached rest) (hr : r.Sound compact) : reached.Sound compact :=
  h.preserves (fun _ _ _ _ _ hr hb hs => hr.step hb hs) hr

theorem reaches_of_readFrom {compact : Bool} {fault : Fault} : ∀ {lines : List Line} {skip : Nat} {r after : Reader},
    readFrom compact skip r lines = (after, .error fault) →
      ∃ reached line rest, Reaches compact skip r lines reached (line :: rest) ∧ allBlank line.text = false ∧
        reached.step compact line rest = (after, .error fault)
  | [], _, _, _, h => by simp [readFrom] at h
  | _ :: lines, skip + 1, r, after, h => by
    obtain ⟨reached, line, rest, hreach, hstep⟩ := @reaches_of_readFrom _ _ lines skip r after h
    exact ⟨reached, line, rest, .pass hreach, hstep⟩
  | first :: lines, 0, r, after, h => by
    unfold readFrom at h
    split at h
    · rename_i hb
      obtain ⟨reached, line, rest, hreach, hstep⟩ := reaches_of_readFrom h
      exact ⟨reached, line, rest, .blank hb hreach, hstep⟩
    · rename_i hb
      have hb : allBlank first.text = false := by simpa using hb
      split at h
      · rename_i stopped found hs
        simp only [Prod.mk.injEq, Except.error.injEq] at h
        obtain ⟨rfl, rfl⟩ := h
        exact ⟨r, first, lines, .here, hb, hs⟩
      · rename_i next skip hs
        obtain ⟨reached, line, rest, hreach, hstep⟩ := reaches_of_readFrom h
        exact ⟨reached, line, rest, .step hb hs hreach, hstep⟩

end Reader

/-- **A statement begins with `line`**: reading `lines` has come this far and has made the reader `r`. -/
structure Begins (compact : Bool) (lines : List Line) (r : Reader) (line : Line) (rest : List Line) : Prop where
  reaches : Reader.Reaches compact 0 {} lines r (line :: rest)
  visible : allBlank line.text = false

theorem Begins.sound {compact : Bool} {lines rest : List Line} {r : Reader} {line : Line}
    (h : Begins compact lines r line rest) : r.Sound compact :=
  h.reaches.sound (Reader.Sound.initial compact)

theorem Begins.subset {compact : Bool} {lines rest : List Line} {r : Reader} {line : Line}
    (h : Begins compact lines r line rest) : line :: rest ⊆ lines :=
  h.reaches.suffix.subset

/-- A statement that is gathered says something. -/
theorem Begins.read_ne_none {compact : Bool} {lines rest : List Line} {r : Reader} {line : Line}
    (h : Begins compact lines r line rest) {indent : Nat} {frames : Frames} {ind after : Indentation} {joined : Joined}
    (hin : r.Enters line indent frames ind)
    (hj : joinLines ind indent (trim line.text) rest = (after, .ok joined)) :
    Statement.read compact joined.text ≠ .ok none := by
  obtain ⟨measured, hc, he⟩ := hin
  have hpos := ((h.sound.aligned.classified hc).enter he).1.pos
  have hjoins := (joinLines_iff hpos).1 hj
  exact Statement.read_ne_none (hjoins.not_blank (by rw [allBlank_trim, h.visible]))

/-- **A refused run, unpacked**: it comes to a statement, and that is refused. -/
theorem readLines_error {compact : Bool} {lines : List Line} {after : Reader} {fault : Fault}
    (h : readLines compact lines = (after, .error fault)) :
    ∃ r line rest, Begins compact lines r line rest ∧ r.step compact line rest = (after, .error fault) := by
  obtain ⟨r, line, rest, hreach, hb, hs⟩ := Reader.reaches_of_readFrom h
  exact ⟨r, line, rest, ⟨hreach, hb⟩, hs⟩

theorem readLines_arises {compact : Bool} {lines : List Line} {after : Reader} {fault : Fault}
    (h : readLines compact lines = (after, .error fault)) : fault.cause ∈ Cause.arising := by
  obtain ⟨r, line, rest, hbegins, hs⟩ := readLines_error h
  exact (Reader.refuses_of_step hs).arises hbegins.sound.aligned

/-! ## Compiling -/

theorem compile_error_iff {o : Options} {source : List Char} {fault : Fault} :
    compile o source = .error fault ↔ (readLines o.compact (prepare o.compact source)).2 = .error fault := by
  unfold compile compileAll
  simp only
  split
  · rename_i h
    simp [h, Except.map]
  · rename_i h
    simp [h, Except.map]

theorem readLines_of_compile {o : Options} {source : List Char} {fault : Fault}
    (h : compile o source = .error fault) :
    ∃ after, readLines o.compact (prepare o.compact source) = (after, .error fault) :=
  ⟨_, Prod.ext rfl (compile_error_iff.1 h)⟩

/-- **Which faults there are.**  Six codes come up, each of them for some source.  Wherever a statement begins, the step
that its indent is held against is not zero, its indent returns to an open block or leads below one, and what is
gathered for it says something, with a value behind its colon if it is a declaration. -/
theorem compile_codes :
    (∀ code : String, (∃ o source fault, compile o source = .error fault ∧ fault.cause.code = code) ↔
      code ∈ ["MixedIndentation", "InvalidIndentStep", "UnexpectedIndent", "EmptyName", "EmptyProperty",
        "MalformedVariable"]) ∧
    ∀ (o : Options) (source : List Char) (r : Reader) (line : Line) (rest : List Line),
      Begins o.compact (prepare o.compact source) r line rest →
        (∀ s, r.indentation.step = some s → s ≠ 0) ∧
        (∀ measured indent, r.indentation.classify true line.text = (measured, .ok indent) →
          (r.frames.enter measured indent).2.2 ≠ .error .unbalancedIndent) ∧
        ∀ indent frames ind after joined, r.Enters line indent frames ind →
          joinLines ind indent (trim line.text) rest = (after, .ok joined) →
            Statement.read o.compact joined.text ≠ .ok none ∧
              Statement.read o.compact joined.text ≠ .error .emptyValue := by
  refine ⟨fun code => ⟨?_, ?_⟩, fun o source r line rest hbegins => ⟨?_, ?_, ?_⟩⟩
  · rintro ⟨o, source, fault, h, rfl⟩
    obtain ⟨after, hread⟩ := readLines_of_compile h
    have hcodes : ∀ cause ∈ Cause.arising, cause.code ∈ ["MixedIndentation", "InvalidIndentStep", "UnexpectedIndent",
        "EmptyName", "EmptyProperty", "MalformedVariable"] := by decide
    exact hcodes _ (readLines_arises hread)
  · intro hcode
    have hfails : ∀ {source : List Char} {fault : Fault},
        (readLines false (prepare false source)).2 = .error fault → compile {} source = .error fault :=
      fun {source fault} => (@compile_error_iff {} source fault).2
    simp only [List.mem_cons, List.not_mem_nil, or_false] at hcode
    rcases hcode with rfl | rfl | rfl | rfl | rfl | rfl
    · exact ⟨{}, "a\n \tb".toList, ⟨.mixedIndentation, 2⟩, hfails (by decide), rfl⟩
    · exact ⟨{}, "a\n  b\n   c".toList, ⟨.offStep, 6⟩, hfails (by decide), rfl⟩
    · exact ⟨{}, " a".toList, ⟨.unexpectedIndent, 0⟩, hfails (by decide), rfl⟩
    · exact ⟨{}, "@".toList, ⟨.emptyAtRuleName, 0⟩, hfails (by decide), rfl⟩
    · exact ⟨{}, ": a".toList, ⟨.emptyProperty, 0⟩, hfails (by decide), rfl⟩
    · exact ⟨{}, "$a".toList, ⟨.malformedVariable, 0⟩, hfails (by decide), rfl⟩
  · intro s hs
    exact Nat.ne_of_gt (hbegins.sound.aligned.pos s hs)
  · intro measured indent hc herror
    have hcause := (hbegins.sound.aligned.classified hc).enter_error (Prod.ext rfl (Prod.ext rfl herror))
    simp at hcause
  · intro indent frames ind after joined hin hj
    refine ⟨hbegins.read_ne_none hin hj, fun herror => ?_⟩
    have hcause := Statement.read_error herror
    simp [Cause.arising] at hcause

/-- The last statement of a source whose step is known, a declaration that is continued. -/
theorem compile_codes_continued :
    let r : Reader :=
      { indentation := { style := some .space, step := some 2 }
        frames :=
          { top := { indent := 2, last := some (.heading (.rule ['b'] none)) }
            below := [{ indent := 0, last := some (.heading (.rule ['a'] none)) }] }
        logical := [⟨['a'], 0, 0⟩, ⟨['b'], 2, 2⟩]
        sheet := .block (.rule ['a'] none) (.block (.rule ['b'] none) .nil .nil) .nil }
    let line : Line := { text := "  x: y,".toList, offset := 6 }
    let rest : List Line := [{ text := "  z".toList, offset := 14 }]
    let read := Statement.read false "x: y, z".toList
    Begins false (prepare false "a\n  b\n  x: y,\n  z".toList) r line rest ∧
      r.indentation.step = some 2 ∧ (2 : Nat) ≠ 0 ∧
      r.indentation.classify true line.text = (r.indentation, .ok 2) ∧
      (r.frames.enter r.indentation 2).2.2 ≠ .error .unbalancedIndent ∧
      joinLines r.indentation 2 (trim line.text) rest = (r.indentation, .ok ⟨"x: y, z".toList, 1⟩) ∧
      read ≠ .ok none ∧ read ≠ .error .emptyValue := by
  intro r line rest read
  obtain ⟨hc, he, hj⟩ : r.indentation.classify true line.text = (r.indentation, .ok 2) ∧
      r.frames.enter r.indentation 2 = (r.frames, r.indentation, .ok ()) ∧
      joinLines r.indentation 2 (trim line.text) rest = (r.indentation, .ok ⟨"x: y, z".toList, 1⟩) := by
    decide +revert
  let first : Reader :=
    { frames := { top := { indent := 0, last := some (.heading (.rule ['a'] none)) }, below := [] }
      logical := [⟨['a'], 0, 0⟩]
      sheet := .block (.rule ['a'] none) .nil .nil }
  obtain ⟨hlines, hfirst, hsecond⟩ :
      prepare false "a\n  b\n  x: y,\n  z".toList = ⟨['a'], 0⟩ :: ⟨"  b".toList, 2⟩ :: line :: rest ∧
      Reader.step false {} ⟨['a'], 0⟩ (⟨"  b".toList, 2⟩ :: line :: rest) = (first, .ok 0) ∧
      first.step false ⟨"  b".toList, 2⟩ (line :: rest) = (r, .ok 0) := by
    clear hc he hj
    decide +revert
  have hbegins : Begins false (prepare false "a\n  b\n  x: y,\n  z".toList) r line rest := by
    rw [hlines]
    exact ⟨.step (by decide) hfirst (.step (by decide) hsecond .here), by decide⟩
  obtain ⟨hstep, henter, hread⟩ := compile_codes.2 {} _ r line rest hbegins
  obtain ⟨hsome, hvalue⟩ := hread 2 r.frames r.indentation r.indentation _ ⟨r.indentation, hc, he⟩ hj
  exact ⟨hbegins, rfl, hstep 2 rfl, hc, henter r.indentation 2 hc, hj, hsome, hvalue⟩

end Offside
