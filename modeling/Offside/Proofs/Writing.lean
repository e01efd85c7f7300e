import Offside.Proofs.Lines
import Offside.Proofs.Reading

/-!
# Writing a forest as lines

A forest is written in preorder, one statement a line, indented by its depth.
Reading undoes writing (`readLines_written`), whatever the unit of indentation and
wherever blank lines are put in.  While the lines are read, the style is that of
the unit or unknown, the step is the unit's width or unknown, and the next
statement fits into the open blocks (`Ready`).
-/
namespace Offside

/-- One level of indentation: spaces, or one tab. -/
inductive IndentUnit
  | spaces (count : Nat) (pos : 0 < count)
  | tab

namespace IndentUnit

def text : IndentUnit → List Char
  | spaces count _ => List.replicate count ' '
  | tab => ['\t']

/-- A text indented by `depth` units. -/
def indented (u : IndentUnit) (depth : Nat) (text : List Char) : List Char :=
  (List.replicate depth u.text).flatten ++ text

/-- The lines of a forest: its statements in preorder, each written as the text that goes with it. -/
def written (u : IndentUnit) (f : Sheet) (texts : List (List Char)) : List (List Char) :=
  List.zipWith (fun p text => u.indented p.1 text) f.preorder texts

/-! ## How a unit is measured -/

def style : IndentUnit → Style
  | spaces _ _ => .space
  | tab => .tab

/-- The width of one unit.  A tab is measured before a step is known and becomes the step; later it is one step wide. -/
def width : IndentUnit → Nat
  | spaces count _ => count
  | tab => tabWidth

/-- How many characters a unit has. -/
def count : IndentUnit → Nat
  | spaces count _ => count
  | tab => 1

theorem count_pos : ∀ u : IndentUnit, 0 < u.count
  | spaces _ pos => pos
  | tab => Nat.one_pos

theorem indented_eq (u : IndentUnit) (depth : Nat) (text : List Char) :
    u.indented depth text = List.replicate (depth * u.count) u.style.char ++ text := by
  have htext : u.text = List.replicate u.count u.style.char := by
    cases u <;> rfl
  rw [indented, htext, List.flatten_replicate_replicate]

theorem count_mul_width (u : IndentUnit) {ind : Indentation} (h : ind.step = none ∨ ind.step = some u.width) :
    u.count * ind.width u.style = u.width := by
  cases u with
  | spaces count pos => exact Nat.mul_one count
  | tab =>
    rw [count, Nat.one_mul]
    rcases h with h | h <;> simp [Indentation.width, style, h, width]

/-- **An indented line is taken in at its depth**, and teaches the unit. -/
theorem takes_indented (u : IndentUnit) {frames : Frames} {ind : Indentation} (ha : frames.Aligned ind)
    (hstyle : Indentation.agrees ind.style u.style = true) (hstep : ind.step = none ∨ ind.step = some u.width) {d : Nat}
    (hd : frames.Admits d) {text : List Char} (htext : ∀ c ∈ text.head?, Style.of? c = none) :
    frames.Takes ind (u.indented d text) u.style (d * u.count) d ∧
      Indentation.agrees (ind.settle u.style (d * u.count)).style u.style = true ∧
      ((ind.settle u.style (d * u.count)).step = none ∨ (ind.settle u.style (d * u.count)).step = some u.width) := by
  have hrun : leadingRun (u.indented d text) = List.replicate (d * u.count) u.style.char := by
    rw [indented_eq, Indentation.leadingRun_replicate_append u.style _ htext]
  have hwide : d * u.count * ind.width u.style = d * u.width := by
    rw [Nat.mul_assoc, u.count_mul_width hstep]
  by_cases hn : d * u.count = 0
  · obtain rfl : d = 0 := (Nat.mul_eq_zero.1 hn).resolve_right (Nat.ne_of_gt u.count_pos)
    rw [hn] at hrun ⊢
    exact ⟨frames.takes_zero ind hrun u.style, hstyle, hstep⟩
  · have hlearned : ind.step.getD (d * u.count * ind.width u.style) = u.width := by
      rcases hstep with hs | hs
      · -- the first indented line of all is one unit deep
        have hle := ha.admits_le_one hs hd
        have hone : d = 1 := by
          have : d ≠ 0 := fun h0 => hn (by rw [h0, Nat.zero_mul])
          omega
        rw [hs, Option.getD_none, hwide, hone, Nat.one_mul]
      · rw [hs, Option.getD_some]
    have hsettle := Indentation.settle_of_ne_zero ind u.style hn
    rw [hlearned] at hsettle
    rw [hsettle]
    refine ⟨⟨⟨hrun, fun _ => hstyle⟩, hd, fun h0 => absurd h0 hn, ?_⟩, by simp [Indentation.agrees], Or.inr rfl⟩
    rw [hsettle, hwide]
    rfl

end IndentUnit

/-! ## One line -/

/-- `text` is a way to write `s` on a line: trimmed, unbroken, and with no comma at its end that would join the next
line to it. -/
structure Says (compact : Bool) (text : List Char) (s : Statement) : Prop where
  trimmed : trim text = text
  unbroken : '\n' ∉ text ∧ '\r' ∉ text
  complete : text.getLast? ≠ some ','
  reads : Statement.read compact text = .ok (some s)

theorem Says.ne_nil {compact : Bool} {text : List Char} {s : Statement} (h : Says compact text s) : text ≠ [] := by
  rintro rfl
  have := h.reads
  cases compact <;> cases this

theorem Says.not_blank {compact : Bool} {text : List Char} {s : Statement} (h : Says compact text s) :
    allBlank text = false := by
  rw [← Bool.not_eq_true, ← trim_eq_nil_iff, h.trimmed]
  exact h.ne_nil

/-- A line of its own begins with something visible, so its indentation ends there. -/
theorem Says.style_of_head {compact : Bool} {text : List Char} {s : Statement} (h : Says compact text s) :
    ∀ c ∈ text.head?, Style.of? c = none := by
  intro c hc
  have hb := head?_of_trimmed h.trimmed hc
  have hspace : c ≠ ' ' := by
    rintro rfl
    exact absurd hb (by decide)
  have htab : c ≠ '\t' := by
    rintro rfl
    exact absurd hb (by decide)
  simp [Style.of?, hspace, htab]

theorem IndentUnit.mem_prefix (u : IndentUnit) {depth : Nat} {c : Char}
    (h : c ∈ (List.replicate depth u.text).flatten) : c = ' ' ∨ c = '\t' := by
  obtain ⟨l, hl, hc⟩ := List.mem_flatten.1 h
  rw [(List.mem_replicate.1 hl).2] at hc
  cases u with
  | spaces count pos => exact Or.inl (List.mem_replicate.1 hc).2
  | tab => exact Or.inr (List.mem_singleton.1 hc)

theorem IndentUnit.allBlank_prefix (u : IndentUnit) (depth : Nat) :
    allBlank (List.replicate depth u.text).flatten = true := by
  rw [allBlank_iff]
  intro c hc
  rcases u.mem_prefix hc with rfl | rfl <;> decide

theorem IndentUnit.unbroken_indented (u : IndentUnit) (depth : Nat) {text : List Char}
    (h : '\n' ∉ text ∧ '\r' ∉ text) : '\n' ∉ u.indented depth text ∧ '\r' ∉ u.indented depth text := by
  constructor <;>
  · intro hm
    rcases List.mem_append.1 hm with hm | hm
    · rcases u.mem_prefix hm with hc | hc <;> cases hc
    · exact absurd hm (by simp [h])

/-- What the reader holds before it reads the statements `todo`: what it has learned is the unit's, and the first of
them is no deeper than the innermost block, or right below its last heading. -/
structure Ready (u : IndentUnit) (compact : Bool) (r : Reader) (todo : List (Nat × Statement)) : Prop where
  sound : r.Sound compact
  style : Indentation.agrees r.indentation.style u.style = true
  step : r.indentation.step = none ∨ r.indentation.step = some u.width
  next : ∀ p ∈ todo.head?, r.frames.Admits p.1
  chain : todo.IsChain Forest.Follows

/-- **A written statement is read**: it is appended to the forest, and the reader is ready for those after it. -/
theorem Ready.read {u : IndentUnit} {compact : Bool} {r : Reader} {todo : List (Nat × Statement)} {d : Nat}
    {s : Statement} {text : List Char} {line : Line} (hr : Ready u compact r ((d, s) :: todo))
    (hs : Says compact text s) (hl : line.text = u.indented d text) (following : List Line) :
    ∃ after, r.step compact line following = (after, .ok 0) ∧
      after.sheet.preorder = r.sheet.preorder ++ [(d, s)] ∧ Ready u compact after todo := by
  obtain ⟨htakes, hstyle, hstep⟩ :=
    u.takes_indented hr.sound.aligned hr.style hr.step (hr.next (d, s) rfl) hs.style_of_head
  rw [← hl] at htakes
  have htrim : trim line.text = text := by
    rw [hl, IndentUnit.indented, trim_append_blank (u.allBlank_prefix d), hs.trimmed]
  have hblank : allBlank line.text = false := by
    rw [hl, IndentUnit.indented, allBlank_append, hs.not_blank, Bool.and_false]
  obtain ⟨after, hread, hind, hgrows⟩ := hr.sound.step_of_takes htakes
    (.ends (Or.inl (by rw [htrim]; exact hs.complete))) (by rw [htrim]; exact hs.reads)
  refine ⟨after, hread, hgrows.view, hr.sound.step hblank hread, ?_, ?_, fun q hq => ?_,
    (List.isChain_cons.1 hr.chain).2⟩
  · rw [hind]
    exact hstyle
  · rw [hind]
    exact hstep
  · exact hgrows.admits_iff.2 ((List.isChain_cons.1 hr.chain).1 q hq)

/-! ## All lines -/

theorem Ready.runs {u : IndentUnit} {compact : Bool} : ∀ (lines : List Line) {todo : List (Nat × Statement)}
    {texts : List (List Char)} {r : Reader}, Ready u compact r todo →
      List.Forall₂ (Says compact) texts (todo.map Prod.snd) →
      (lines.map Line.text).filter (fun text => !allBlank text) =
        List.zipWith (fun p text => u.indented p.1 text) todo texts →
      ∃ after, Reader.Runs compact 0 r lines after ∧ after.sheet.preorder = r.sheet.preorder ++ todo
  | [], [], _, r, _, _, _ => ⟨r, .done, by rw [List.append_nil]⟩
  | [], _ :: _, [], _, _, hs, _ => by cases hs
  | [], _ :: _, _ :: _, _, _, _, h => by cases h
  | line :: lines, todo, texts, r, hr, hs, h => by
    by_cases hb : allBlank line.text = true
    · rw [List.map_cons, List.filter_cons_of_neg (by simp [hb])] at h
      obtain ⟨after, hrun, hafter⟩ := Ready.runs lines hr hs h
      exact ⟨after, .blank hb hrun, hafter⟩
    · rw [List.map_cons, List.filter_cons_of_pos (by simp [hb])] at h
      cases todo with
      | nil => cases h
      | cons p todo =>
        cases hs with
        | cons hsays hs =>
          obtain ⟨hline, h⟩ := List.cons.inj h
          obtain ⟨next, hstep, hview, hnext⟩ := hr.read hsays hline lines
          obtain ⟨after, hrun, hafter⟩ := Ready.runs lines hnext hs h
          exact ⟨after, .step (by simpa using hb) hstep hrun,
            by rw [hafter, hview, List.append_assoc, List.singleton_append]⟩

theorem Ready.initial (u : IndentUnit) (compact : Bool) (f : Sheet) : Ready u compact {} f.preorder where
  sound := Reader.Sound.initial compact
  style := rfl
  step := Or.inl rfl
  next p hp := Or.inl (Nat.le_of_eq (Forest.head?_preorderFrom f 0 p hp))
  chain := Forest.isChain_preorderFrom f 0

theorem IndentUnit.unbroken_written (u : IndentUnit) {compact : Bool} : ∀ {todo : List (Nat × Statement)}
    {texts : List (List Char)}, List.Forall₂ (Says compact) texts (todo.map Prod.snd) →
      ∀ text ∈ List.zipWith (fun p text => u.indented p.1 text) todo texts, '\n' ∉ text ∧ '\r' ∉ text
  | [], _, _, _, hm => by cases hm
  | _ :: _, [], hs, _, _ => by cases hs
  | p :: todo, first :: texts, .cons hsays hs, text, hm => by
    rcases List.mem_cons.1 hm with rfl | hm
    · exact u.unbroken_indented p.1 hsays.unbroken
    · exact u.unbroken_written hs text hm

/-- **Reading undoes writing**, for every unit of indentation and with blank lines put in anywhere: given as lines, or
as a source in which each line but the last is followed by LF. -/
theorem readLines_written (u : IndentUnit) {compact : Bool} {f : Sheet} {texts : List (List Char)}
    (ht : List.Forall₂ (Says compact) texts (f.preorder.map Prod.snd)) {physical : List (List Char)}
    (hp : physical.filter (fun text => !allBlank text) = u.written f texts) :
    (∀ lines : List Line, lines.map Line.text = physical →
      ∃ r, readLines compact lines = (r, .ok ()) ∧ r.sheet = f) ∧
    ((∀ text ∈ physical, allBlank text = true → '\n' ∉ text ∧ '\r' ∉ text) →
      ∃ r, readLines compact (prepare false (['\n'].intercalate physical)) = (r, .ok ()) ∧ r.sheet = f) := by
  have hlines : ∀ lines : List Line, (lines.map Line.text).filter (fun text => !allBlank text) = u.written f texts →
      ∃ r, readLines compact lines = (r, .ok ()) ∧ r.sheet = f := by
    intro lines hl
    obtain ⟨r, hrun, hview⟩ := Ready.runs lines (Ready.initial u compact f) ht hl
    exact ⟨r, readLines_iff.2 hrun, Forest.preorder_injective hview⟩
  refine ⟨fun lines hl => hlines lines (hl ▸ hp), fun hblank => hlines _ ?_⟩
  cases physical with
  | nil => exact hp
  | cons text physical =>
    rw [prepare_intercalate (List.cons_ne_nil text physical), hp]
    intro t ht'
    by_cases hb : allBlank t = true
    · exact hblank t ht' hb
    · have hm : t ∈ u.written f texts := hp ▸ List.mem_filter.2 ⟨ht', by simpa using hb⟩
      exact u.unbroken_written ht t hm

/-- A block inside a block, closed at one go, with blank lines of spaces and tabs in between. -/
theorem readLines_written_tabs : ∃ r,
    readLines false (prepare false "a\n \t\n\tb // c\n\t\tx: y\n\t \nd".toList) = (r, .ok ()) ∧
      r.sheet = .block (.rule ['a'] none)
        (.block (.rule ['b'] (some { kind := .line, text := ['c'], raw := "// c".toList }))
          (.leaf (.declare ['x'] ['y'] none) .nil) .nil)
        (.block (.rule ['d'] none) .nil .nil) :=
  (@readLines_written .tab false _ [['a'], "b // c".toList, "x: y".toList, ['d']]
    (.cons ⟨rfl, by decide, by decide, rfl⟩ (.cons ⟨rfl, by decide, by decide, rfl⟩
      (.cons ⟨rfl, by decide, by decide, rfl⟩ (.cons ⟨rfl, by decide, by decide, rfl⟩ .nil))))
    [['a'], " \t".toList, "\tb // c".toList, "\t\tx: y".toList, "\t ".toList, ['d']] (by decide)).2 (by decide)

end Offside
