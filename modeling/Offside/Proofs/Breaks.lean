import Offside.Proofs.Emitting
import Offside.Proofs.Grouping
import Offside.Proofs.Relocation
import Offside.Proofs.Selecting
import Offside.Proofs.Statements

/-!
# The lines of the output

No line of a source has a line break in it, and nothing that happens to a text on its way out puts one
in: texts are cut, trimmed, joined and squeezed, and what is added is punctuation.  So every line that
is written is one line (`Unbroken.emits`), and formatted output can be taken apart at its breaks.
-/
namespace Offside

/-- There is no line break in the text. -/
def Unbroken (cs : List Char) : Prop := '\n' ∉ cs ∧ '\r' ∉ cs

instance (cs : List Char) : Decidable (Unbroken cs) := inferInstanceAs (Decidable (_ ∧ _))

theorem Unbroken.mono {a b : List Char} (h : Unbroken b) (hs : a ⊆ b) : Unbroken a :=
  ⟨fun hm => h.1 (hs hm), fun hm => h.2 (hs hm)⟩

@[simp] theorem unbroken_nil : Unbroken [] := ⟨by simp, by simp⟩

@[simp] theorem unbroken_append {a b : List Char} : Unbroken (a ++ b) ↔ Unbroken a ∧ Unbroken b := by
  simp only [Unbroken, List.mem_append, not_or]
  tauto

@[simp] theorem unbroken_cons {c : Char} {cs : List Char} :
    Unbroken (c :: cs) ↔ (c ≠ '\n' ∧ c ≠ '\r') ∧ Unbroken cs := by
  simp only [Unbroken, List.mem_cons, not_or, ne_eq, @eq_comm _ c]
  tauto

theorem unbroken_flatten {parts : List (List Char)} (h : ∀ part ∈ parts, Unbroken part) : Unbroken parts.flatten := by
  constructor <;> intro hm <;> obtain ⟨part, hp, hm⟩ := List.mem_flatten.1 hm
  · exact (h part hp).1 hm
  · exact (h part hp).2 hm

theorem unbroken_intercalate {sep : List Char} (hsep : Unbroken sep) : ∀ {parts : List (List Char)},
    (∀ part ∈ parts, Unbroken part) → Unbroken (sep.intercalate parts)
  | [], _ => by simp
  | [part], h => by simpa using h part List.mem_cons_self
  | part :: next :: parts, h => by
    have ih := unbroken_intercalate hsep fun p hp => h p (List.mem_cons_of_mem part hp)
    rw [List.intercalate_cons_cons]
    simp only [unbroken_append]
    exact ⟨⟨h part List.mem_cons_self, hsep⟩, ih⟩

/-! ## Lines -/

theorem isInfix_intercalate {sep part : List Char} : ∀ {parts : List (List Char)}, part ∈ parts →
    part <:+: sep.intercalate parts
  | [first], h => by simp [List.mem_singleton.1 h]
  | first :: next :: parts, h => by
    rw [List.intercalate_cons_cons]
    rcases List.mem_cons.1 h with rfl | h
    · exact ⟨[], _, by rw [List.nil_append, List.append_assoc]⟩
    · exact (isInfix_intercalate h).trans (List.suffix_append _ _).isInfix

/-- The text of a line is a stretch of what was kept. -/
theorem prepare_isInfix {strip : Bool} {source : List Char} {line : Line} (hl : line ∈ prepare strip source) :
    line.text <:+: (kept strip source).map Prod.fst := by
  rw [prepare_eq] at hl
  have hmem : line.text ∈ (splitLines source.length (kept strip source)).map Line.text := List.mem_map_of_mem hl
  have hpart := @isInfix_intercalate ['\n'] _ _ hmem
  rwa [intercalate_splitLines] at hpart

theorem prepare_unbroken (strip : Bool) (source : List Char) : ∀ line ∈ prepare strip source, Unbroken line.text := by
  intro line hl
  refine ⟨not_mem_of_mem_splitLines hl, fun hm => not_mem_unifyBreaks source ?_⟩
  have hkept := ((kept_sublist strip source).map Prod.fst).subset ((prepare_isInfix hl).subset hm)
  rwa [place, placeFrom_map_fst] at hkept

theorem logical_unbroken {compact strip : Bool} {source : List Char} {r : Reader}
    (h : readLines compact (prepare strip source) = (r, .ok ())) : ∀ l ∈ r.logical, Unbroken l.text := by
  refine (readLines_grouped h).forall_text (fun line hl => ?_) fun text next _ ht hn => ?_
  · exact (prepare_unbroken strip source line hl).mono (trim_isInfix line.text).subset
  · have hkept := ht.mono ((trimRight_isPrefix text.dropLast).trans (List.dropLast_prefix text)).subset
    simp [joinText, hkept, hn]

/-! ## Texts on their way out -/

theorem unbroken_trim {cs : List Char} (h : Unbroken cs) : Unbroken (trim cs) := h.mono (trim_isInfix cs).subset

/-- A rule that puts no break where there was none. -/
theorem unbroken_replaceFrom {rule : List Char → Option (Found Char)}
    (hrule : ∀ u found, Unbroken u → rule u = some found → Unbroken found.put) : ∀ (skip : Nat) {cs : List Char},
    Unbroken cs → Unbroken (replaceFrom rule skip cs)
  | _, [], h => by simp [replaceFrom]
  | skip + 1, c :: cs, h => by
    rw [replaceFrom]
    exact unbroken_replaceFrom hrule skip (unbroken_cons.1 h).2
  | 0, c :: cs, h => by
    have hcs := unbroken_cons.1 h
    rw [replaceFrom]
    split
    · rename_i found hf
      exact unbroken_append.2 ⟨hrule _ found h hf, unbroken_replaceFrom hrule found.more hcs.2⟩
    · exact unbroken_cons.2 ⟨hcs.1, unbroken_replaceFrom hrule 0 hcs.2⟩

theorem Env.Holds.unbroken_substitute {env : Env} (henv : env.Holds fun _ value => Unbroken value) {cs : List Char}
    (h : Unbroken cs) : Unbroken (env.substitute cs) := by
  refine unbroken_replaceFrom (fun u found hu hf => ?_) 0 h
  unfold referenceAt at hf
  split at hf
  · split at hf
    · cases hf
    · rename_i cs name _
      cases hf
      have hname : Unbroken (cs.takeWhile isNameChar) :=
        (unbroken_cons.1 hu).2.mono (List.takeWhile_prefix _).subset
      show Unbroken (resolve env.get? (cs.takeWhile isNameChar))
      unfold resolve
      cases hget : env.get? (cs.takeWhile isNameChar) with
      | some value => exact henv _ value hget
      | none => simp [hname]
  · cases hf

namespace Squeeze

theorem dropAfterFrom_sublist (p : Char → Bool) : ∀ (after : Bool) (cs : List Char), (dropAfterFrom p after cs).Sublist cs
  | _, [] => List.Sublist.slnil
  | after, c :: cs => by
    rw [dropAfterFrom]
    split
    · exact (dropAfterFrom_sublist p true cs).cons c
    · exact (dropAfterFrom_sublist p (p c) cs).cons_cons c

theorem dropBefore_sublist (p : Char → Bool) : ∀ cs : List Char, (dropBefore p cs).Sublist cs
  | [] => List.Sublist.slnil
  | c :: cs => by
    unfold dropBefore
    simp only
    split
    · exact (dropBefore_sublist p cs).cons c
    · exact (dropBefore_sublist p cs).cons_cons c

theorem unbroken_collapseRuns : ∀ {cs : List Char}, Unbroken cs → Unbroken (collapseRuns cs)
  | [], h => h
  | c :: cs, h => by
    have hcs := unbroken_cons.1 h
    have ih := unbroken_collapseRuns hcs.2
    unfold collapseRuns
    split
    · rename_i d ds heq
      rw [heq] at ih
      split
      · exact unbroken_cons.2 ⟨by decide, (unbroken_cons.1 ih).2⟩
      · exact unbroken_cons.2 ⟨hcs.1, ih⟩
    · exact unbroken_cons.2 ⟨hcs.1, unbroken_nil⟩

theorem unbroken_value {cs : List Char} (h : Unbroken cs) : Unbroken (value cs) := by
  refine unbroken_trim (unbroken_collapseRuns (h.mono ?_))
  exact ((dropAfterFrom_sublist _ _ _).trans ((dropBefore_sublist _ _).trans
    ((dropAfterFrom_sublist _ _ _).trans (dropAfterFrom_sublist _ _ _)))).subset

theorem unbroken_params {cs : List Char} (h : Unbroken cs) : Unbroken (params cs) := by
  refine unbroken_trim (unbroken_collapseRuns (h.mono ?_))
  exact ((dropAfterFrom_sublist _ _ _).trans ((dropBefore_sublist _ _).trans ((dropBefore_sublist _ _).trans
    ((dropAfterFrom_sublist _ _ _).trans (dropAfterFrom_sublist _ _ _))))).subset

end Squeeze

theorem dropBlankLast_subset : ∀ parts : List (List Char), dropBlankLast parts ⊆ parts
  | [] => by simp [dropBlankLast]
  | [part] => by
    rw [dropBlankLast]
    split <;> simp
  | part :: next :: parts => by
    rw [dropBlankLast]
    exact List.cons_subset_cons part (dropBlankLast_subset (next :: parts))

theorem isInfix_of_mem_splitTopLevel {sep : Char} {cs part : List Char} (h : part ∈ splitTopLevel sep cs) : part <:+: cs := by
  have hall := @isInfix_intercalate [sep] _ _ (dropBlankLast_subset _ h)
  rwa [intercalate_cutParts, marked_map_fst] at hall

namespace Selector

theorem unbroken_expand {cs : List Char} (h : Unbroken cs) : Unbroken (expand cs) := by
  refine unbroken_replaceFrom (fun u found _ hf => ?_) 0 h
  unfold aliasAt at hf
  split at hf
  · cases hf
    decide
  · cases hf

theorem unbroken_nestPart {part : List Char} (h : Unbroken part) : Unbroken (nestPart part) := by
  have he : Unbroken (expand (trim part)) := unbroken_expand (unbroken_trim h)
  unfold nestPart
  simp only
  split
  · exact he
  · split <;> simp_all

theorem unbroken_normalise {nested compact : Bool} {selector : List Char} (h : Unbroken selector) :
    Unbroken (normalise nested compact selector) := by
  have he : Unbroken (expand (trim selector)) := unbroken_expand (unbroken_trim h)
  have hparts : ∀ part ∈ splitTopLevel ',' (expand (trim selector)), Unbroken part :=
    fun part hp => he.mono (isInfix_of_mem_splitTopLevel hp).subset
  have hsep : Unbroken (separator compact) := by cases compact <;> decide
  unfold normalise
  simp only
  split
  · refine unbroken_intercalate hsep fun part hp => ?_
    obtain ⟨p, hmem, rfl⟩ := List.mem_map.1 hp
    exact unbroken_nestPart (hparts p hmem)
  · split
    · refine unbroken_intercalate hsep fun part hp => ?_
      obtain ⟨p, hmem, rfl⟩ := List.mem_map.1 hp
      exact unbroken_trim (hparts p hmem)
    · exact he

end Selector

theorem Comment.unbroken_render {c : Comment} (htext : Unbroken c.text) (hraw : Unbroken c.raw) : Unbroken c.render := by
  have ht := unbroken_trim htext
  have hr := unbroken_trim hraw
  unfold Comment.render
  simp only
  split
  · split
    · exact hr
    · simpa using hr
  · split
    · decide
    · simpa [Comment.opener, Comment.closer] using ht

namespace Options

variable {o : Options}

theorem unbroken_indentAt (h : Unbroken o.indent) (depth : Nat) : Unbroken (o.indentAt depth) := by
  unfold indentAt
  split
  · exact unbroken_nil
  · exact unbroken_flatten fun part hp => by rwa [List.eq_of_mem_replicate hp]

theorem unbroken_colon : Unbroken o.colon := by
  unfold colon
  split <;> decide

theorem unbroken_opening : Unbroken o.opening := by
  unfold opening
  split <;> decide

theorem unbroken_withComment {line : List Char} (h : Unbroken line) {comment : Option Comment}
    (hc : ∀ t ∈ comment.toList.flatMap (fun c => [c.text, c.raw]), Unbroken t) : Unbroken (o.withComment line comment) := by
  unfold withComment
  split
  · rename_i c
    split
    · exact h
    · have hrender := Comment.unbroken_render (hc c.text (by simp)) (hc c.raw (by simp))
      simp [h, hrender]
  · exact h

theorem unbroken_value {full : List Char} (h : Unbroken full) : Unbroken (o.value full) := by
  unfold value
  split
  · exact Squeeze.unbroken_value h
  · exact h

theorem unbroken_entry {env : Env} (henv : env.Holds fun _ value => Unbroken value) {name value : List Char}
    {comment : Option Comment} (hn : Unbroken name) (hv : Unbroken value)
    (hc : ∀ t ∈ comment.toList.flatMap (fun c => [c.text, c.raw]), Unbroken t) : Unbroken (o.entry env name value comment) := by
  have hvalue := @unbroken_value o _ (henv.unbroken_substitute hv)
  refine unbroken_withComment ?_ hc
  simp [hn, hvalue, unbroken_colon]

theorem unbroken_atHeading {env : Env} (henv : env.Holds fun _ value => Unbroken value) {name params : List Char}
    (hn : Unbroken name) (hp : Unbroken params) : Unbroken (o.atHeading env.substitute name params) := by
  have hs := henv.unbroken_substitute hp
  have hq := Squeeze.unbroken_params hs
  unfold atHeading
  split
  · simp [hn]
  · split
    · split <;> simp_all
    · simp [hn, hs]

theorem unbroken_title {env : Env} (henv : env.Holds fun _ value => Unbroken value) {h : Heading}
    (hs : ∀ t ∈ (Statement.heading h).texts, Unbroken t) (nested : Bool) : Unbroken (o.title env nested h) := by
  cases h with
  | rule selector comment =>
    rw [Statement.texts, List.forall_mem_cons] at hs
    exact unbroken_withComment (Selector.unbroken_normalise hs.1) hs.2
  | atRule name params comment =>
    rw [Statement.texts, List.cons_append, List.cons_append, List.nil_append, List.forall_mem_cons,
      List.forall_mem_cons] at hs
    exact unbroken_withComment (unbroken_atHeading henv hs.1 hs.2.1) hs.2.2

end Options

/-! ## Lines of the output -/

/-- A line of the output: it has no break in it, and it is not empty. -/
structure OneLine (line : List Char) : Prop where
  unbroken : Unbroken line
  ne_nil : line ≠ []

theorem OneLine.append_left {line : List Char} (h : OneLine line) {a : List Char} (ha : Unbroken a) : OneLine (a ++ line) :=
  ⟨unbroken_append.2 ⟨ha, h.unbroken⟩, by simp [h.ne_nil]⟩

theorem Options.oneLine_entry {o : Options} {env : Env} (henv : env.Holds fun _ value => Unbroken value)
    {name value : List Char} {comment : Option Comment} (hn : Unbroken name) (hv : Unbroken value)
    (hc : ∀ t ∈ comment.toList.flatMap (fun c => [c.text, c.raw]), Unbroken t) : OneLine (o.entry env name value comment) := by
  refine ⟨unbroken_entry henv hn hv hc, ?_⟩
  unfold entry withComment
  split
  · split <;> simp
  · simp

theorem Comment.render_ne_nil (c : Comment) : c.render ≠ [] := by
  unfold render
  simp only
  split
  · rename_i h
    split
    · intro hnil
      simp [hnil, opener] at h
    · simp
  · split <;> simp [opener]

/-- **No statement writes a break.** -/
theorem Unbroken.emits {o : Options} (hindent : Unbroken o.indent) :
    Emits o (fun _ s => ∀ t ∈ s.texts, Unbroken t) (fun _ value => Unbroken value) OneLine OneLine where
  constant henv hs := Options.unbroken_value (henv.unbroken_substitute (hs _ (by simp [Statement.texts])))
  leaf := by
    intro env item root text henv hs hline depth
    refine OneLine.append_left ?_ (Options.unbroken_indentAt hindent depth)
    rcases Leaf.line?_cases hline with ⟨_, _, _, rfl, rfl⟩ | ⟨_, _, _, rfl, rfl⟩ | ⟨_, rfl, -, rfl⟩
    · simp only [Statement.texts, List.cons_append, List.nil_append, List.forall_mem_cons] at hs
      exact Options.oneLine_entry henv hs.1 hs.2.1 hs.2.2
    · simp only [Statement.texts, List.cons_append, List.nil_append, List.forall_mem_cons] at hs
      exact Options.oneLine_entry henv (by simpa using hs.1) hs.2.1 hs.2.2
    · simp only [Statement.texts, List.forall_mem_cons] at hs
      exact ⟨Comment.unbroken_render hs.1 hs.2.1, Comment.render_ne_nil _⟩
  entry := by
    intro env item root text henv hs hline
    obtain ⟨_, _, _, rfl, rfl⟩ := Leaf.rootLine?_cases hline
    simp only [Statement.texts, List.cons_append, List.nil_append, List.forall_mem_cons] at hs
    exact Options.oneLine_entry henv (by simpa using hs.1) hs.2.1 hs.2.2
  heading henv hs nested depth := by
    have hfront := unbroken_append.2 ⟨Options.unbroken_indentAt hindent depth, @Options.unbroken_title o _ henv _ hs nested⟩
    constructor
    · refine ⟨unbroken_append.2 ⟨hfront, Options.unbroken_opening⟩, ?_⟩
      unfold Options.opening
      split <;> simp
    · exact ⟨unbroken_append.2 ⟨hfront, by decide⟩, by simp⟩
  guard depth := by
    refine ⟨unbroken_append.2 ⟨unbroken_append.2 ⟨Options.unbroken_indentAt hindent depth, ?_⟩,
      Options.unbroken_opening⟩, ?_⟩
    · unfold Options.guardHeading
      split <;> decide
    · unfold Options.opening
      split <;> simp
  closing depth := ⟨unbroken_append.2 ⟨Options.unbroken_indentAt hindent depth, by decide⟩, by simp [Options.closing]⟩

/-! ## The whole output -/

/-- The lines of the root block, when the output is formatted. -/
def Output.rootText (o : Options) (out : Output) : List (List Char) :=
  if out.rootVariables.isEmpty then []
  else (o.rootSelector ++ [' ', '\x7b']) :: out.rootVariables.map (o.indent ++ ·) ++ [['\x7d']]

/-- One empty line, if there is something on both sides of it. -/
def gap (front back : List (List Char)) : List (List Char) := if front.isEmpty || back.isEmpty then [] else [[]]

theorem Output.render_formatted {o : Options} (hf : o.compact = false) (out : Output) :
    out.render o = ['\n'].intercalate (out.rootText o ++ gap (out.rootText o) out.lines ++ out.lines) ++ ['\n'] := by
  unfold render rootBlock rootText gap
  by_cases hroot : out.rootVariables.isEmpty = true
  · simp [hf, hroot]
  · by_cases hlines : out.lines.isEmpty = true
    · simp [hf, hroot, hlines]
    · simp [hf, hroot, hlines]

theorem getLast?_intercalate (sep : List Char) {last : List Char} (h : last ≠ []) : ∀ parts : List (List Char),
    (sep.intercalate (parts ++ [last])).getLast? = last.getLast?
  | [] => by simp
  | [part] => by
    rw [List.cons_append, List.nil_append, List.intercalate_cons_cons, List.getLast?_append, List.intercalate_singleton]
    simp [List.getLast?_eq_some_getLast h]
  | part :: next :: parts => by
    rw [List.cons_append, List.cons_append, List.intercalate_cons_cons, List.getLast?_append]
    have ih := getLast?_intercalate sep h (next :: parts)
    rw [List.cons_append] at ih
    simp [ih, List.getLast?_eq_some_getLast h]

/-- Formatted output ends with one break. -/
theorem getLast?_lines {front back : List (List Char)} (hfront : ∀ line ∈ front, OneLine line)
    (hback : ∀ line ∈ back, OneLine line) :
    (['\n'].intercalate (front ++ gap front back ++ back)).getLast? ≠ some '\n' := by
  have hlast : ∀ parts last, OneLine last → (['\n'].intercalate (parts ++ [last])).getLast? ≠ some '\n' := by
    intro parts last h
    rw [getLast?_intercalate _ h.ne_nil]
    exact fun he => h.unbroken.1 (List.mem_of_getLast? he)
  rcases List.eq_nil_or_concat back with rfl | ⟨init, last, rfl⟩
  · rcases List.eq_nil_or_concat front with rfl | ⟨init, last, rfl⟩
    · simp [gap]
    · simpa [gap] using hlast init last (hfront last (by simp))
  · rw [List.concat_eq_append, ← List.append_assoc]
    exact hlast _ last (hback last (by simp))

theorem Output.rootText_oneLine {o : Options} (hindent : Unbroken o.indent) (hroot : Unbroken o.rootSelector) {out : Output}
    (h : ∀ line ∈ out.rootVariables, OneLine line) : ∀ line ∈ out.rootText o, OneLine line := by
  intro line hl
  unfold rootText at hl
  split at hl
  · cases hl
  · rw [List.mem_append, List.mem_cons, List.mem_singleton] at hl
    rcases hl with (rfl | hl) | rfl
    · exact ⟨by simp [hroot], by simp⟩
    · obtain ⟨entry, he, rfl⟩ := List.mem_map.1 hl
      exact (h entry he).append_left hindent
    · exact ⟨by decide, by decide⟩

theorem Output.render_compact_unbroken {o : Options} (hcompact : o.compact = true) (hroot : Unbroken o.rootSelector)
    {out : Output} (hlines : ∀ line ∈ out.lines, OneLine line) (hvariables : ∀ line ∈ out.rootVariables, OneLine line) :
    Unbroken (out.render o) := by
  have hall := unbroken_flatten fun line hl => (hvariables line hl).unbroken
  unfold render rootBlock
  simp only [hcompact, if_true]
  refine unbroken_flatten fun line hl => ?_
  rcases List.mem_append.1 hl with hl | hl
  · split at hl
    · cases hl
    · rw [List.mem_singleton.1 hl]
      simp [hroot, hall]
  · exact (hlines line hl).unbroken

theorem gap_subset (front back : List (List Char)) : gap front back ⊆ [[]] := by
  unfold gap
  split <;> simp

/-- **The lines of the output.**  Compact output is one line.  Formatted output is the lines of the root block and those of
everything else, with an empty line between the two, each line ended by LF; no line has a break in it and no other
line is empty. -/
theorem compile_lines {o : Options} {source css : List Char} (hindent : Unbroken o.indent)
    (hroot : Unbroken o.rootSelector) (h : compile o source = .ok css) :
    if o.compact then Unbroken css
    else
      '\r' ∉ css ∧ (∃ body, css = body ++ ['\n'] ∧ body.getLast? ≠ some '\n') ∧
        ∃ c out, compileAll o source = .ok c ∧ Output.emit o 0 false c.sheet {} = .ok out ∧
          css = ['\n'].intercalate (out.rootText o ++ gap (out.rootText o) out.lines ++ out.lines) ++ ['\n'] ∧
          ∀ line ∈ out.rootText o ++ out.lines, OneLine line := by
  obtain ⟨c, hc, rfl⟩ := compile_ok h
  obtain ⟨r, hread, rfl⟩ := compileAll_ok hc
  have htexts : ∀ s ∈ Sheet.seen o (.ofScopes [] []) r.sheet, ∀ t ∈ s.2.texts, Unbroken t := by
    intro s hs t ht
    obtain ⟨l, hl, hstatement⟩ := exists_logical hread (Sheet.mem_of_seen hs)
    exact (logical_unbroken hread l hl).mono (Statement.read_texts hstatement t ht).subset
  obtain ⟨out, hemit, hcss, hlines, hvariables⟩ := (Unbroken.emits hindent).sheet htexts
  simp only
  rw [hcss]
  cases hcompact : o.compact with
  | true => exact Output.render_compact_unbroken hcompact hroot hlines hvariables
  | false =>
    have hblock := Output.rootText_oneLine hindent hroot hvariables
    have hreturn : '\r' ∉ ['\n'].intercalate (out.rootText o ++ gap (out.rootText o) out.lines ++ out.lines) := by
      refine not_mem_intercalate (by decide) fun line hl => ?_
      rw [List.append_assoc, List.mem_append, List.mem_append] at hl
      rcases hl with hl | hl | hl
      · exact (hblock line hl).unbroken.2
      · rw [List.mem_singleton.1 (gap_subset _ _ hl)]
        simp
      · exact (hlines line hl).unbroken.2
    rw [if_neg (by simp), Output.render_formatted hcompact]
    refine ⟨?_, ⟨_, rfl, getLast?_lines hblock hlines⟩, _, out, hc, hemit, rfl, fun line hl => ?_⟩
    · rw [List.mem_append, not_or]
      exact ⟨hreturn, by simp⟩
    · rcases List.mem_append.1 hl with hl | hl
      · exact hblock line hl
      · exact hlines line hl

/-- A source with all three kinds of breaks, formatted and compact. -/
theorem compile_lines_mixed :
    (∃ css, compile {} "$a: 1 // x\r\nb:hover,\rc\r  d: $a /* y */\n".toList = .ok css ∧ '\r' ∉ css ∧
      ∃ body, css = body ++ ['\n'] ∧ body.getLast? ≠ some '\n') ∧
    ∃ css, compile { compact := true } "$a: 1 // x\r\nb:hover,\rc\r  d: $a /* y */\n".toList = .ok css ∧ Unbroken css := by
  have hformatted : compile {} "$a: 1 // x\r\nb:hover,\rc\r  d: $a /* y */\n".toList = .ok
      ":root \x7b\n  --a: 1; /* x */\n\x7d\n\n@media (hover: hover) \x7b\n  b:hover, c \x7b\n    d: var(--a); /* y */\n  \x7d\n\x7d\n".toList := by
    decide +kernel
  have hcompact : compile { compact := true } "$a: 1 // x\r\nb:hover,\rc\r  d: $a /* y */\n".toList = .ok
      ":root\x7b--a:1;\x7d@media(hover:hover)\x7bb:hover,c\x7bd:var(--a);\x7d\x7d".toList := by
    decide +kernel
  obtain ⟨hreturn, hend, -⟩ := compile_lines (by decide) (by decide) hformatted
  exact ⟨⟨_, hformatted, hreturn, hend⟩, _, hcompact, compile_lines (by decide) (by decide) hcompact⟩

end Offside
