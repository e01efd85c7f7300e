import Offside.Proofs.Literals
import Offside.Proofs.Walking

/-!
# Resolved references

References are replaced in one pass, and what is put in their place is not looked at again.  That no reference is left
rests on the constants: each was resolved before it got into its scope, so none has a reference in it, and this is kept
by every step of emission (`Walk.Plain.next`).  Then a text in which every `$` begins a reference is resolved as a whole
(`Parts.not_mem_resolved`), and squeezing brings no `$` back.
-/
namespace Offside

/-! ## The references of a text -/

/-- Every `$` begins a reference. -/
def referring : List Char → Bool
  | [] => true
  | c :: cs => (c != '$' || cs.head?.any isNameChar) && referring cs

theorem referring_of_append : ∀ {a b : List Char}, referring (a ++ b) = true → referring b = true
  | [], _, h => h
  | _ :: a, b, h => by
    rw [List.cons_append, referring, Bool.and_eq_true] at h
    exact referring_of_append h.2

/-- **A text cut into its references and the characters between them.**  A reference is as long as it can be, and no
`$` is left between them. -/
structure Parts (raw : List Char) (parts : List Chunk) : Prop where
  written : parts.flatMap Chunk.written = raw
  names : ∀ name, .reference name ∈ parts → name ≠ [] ∧ ∀ c ∈ name, isNameChar c = true
  whole : parts.IsChain fun a b => ∀ name c, a = .reference name → b = .char c → isNameChar c = false
  between : ∀ c, .char c ∈ parts → c ≠ '$'

theorem Parts.char {c : Char} (hc : c ≠ '$') {cs : List Char} {parts : List Chunk} (h : Parts cs parts) :
    Parts (c :: cs) (.char c :: parts) := by
  refine ⟨?_, ?_, ?_, ?_⟩
  · rw [List.flatMap_cons, h.written]
    rfl
  · intro name hmem
    exact h.names name (by simpa using hmem)
  · exact List.isChain_cons.2 ⟨fun _ _ _ _ hname => (Chunk.noConfusion hname), h.whole⟩
  · intro d hmem
    rcases List.mem_cons.1 hmem with he | hmem
    · cases he
      exact hc
    · exact h.between d hmem

theorem Parts.reference {name rest : List Char} (hne : name ≠ []) (hname : ∀ c ∈ name, isNameChar c = true)
    (hrest : ∀ c, rest.head? = some c → isNameChar c = false) {parts : List Chunk} (h : Parts rest parts) :
    Parts ('$' :: (name ++ rest)) (.reference name :: parts) := by
  refine ⟨?_, ?_, ?_, ?_⟩
  · rw [List.flatMap_cons, h.written]
    rfl
  · intro other hmem
    rcases List.mem_cons.1 hmem with he | hmem
    · cases he
      exact ⟨hne, hname⟩
    · exact h.names other hmem
  · refine List.isChain_cons.2 ⟨?_, h.whole⟩
    intro next hnext _ c _ hc
    -- the next chunk is the next character of the text
    obtain ⟨more, rfl⟩ := List.head?_eq_some_iff.1 hnext
    refine hrest c ?_
    rw [← h.written, List.flatMap_cons, hc]
    rfl
  · intro c hmem
    exact h.between c (by simpa using hmem)

theorem parts_chunks {raw : List Char} (h : referring raw = true) : Parts raw (chunks raw) := by
  -- on the length: what is behind a reference is no tail by one constructor
  induction hn : raw.length using Nat.strong_induction_on generalizing raw with
  | _ n ih =>
    subst hn
    cases raw with
    | nil => exact ⟨rfl, by simp [chunks, chunksFrom], .nil, by simp [chunks, chunksFrom]⟩
    | cons c cs =>
      have hcs : referring cs = true := referring_of_append (a := [c]) h
      by_cases hc : c = '$'
      · subst hc
        have hjoin := List.takeWhile_append_dropWhile (p := isNameChar) (l := cs)
        have hne : cs.takeWhile isNameChar ≠ [] := by
          cases cs with
          | nil => simp [referring] at h
          | cons d cs =>
            rw [referring, Bool.and_eq_true] at h
            have hd : isNameChar d = true := by simpa using h.1
            simp [hd]
        have hrest : referring (cs.dropWhile isNameChar) = true := by
          rw [← hjoin] at hcs
          exact referring_of_append hcs
        have hp := ih _ (Nat.lt_succ_of_le (List.dropWhile_suffix isNameChar).length_le) hrest rfl
        have hparts := hp.reference hne (fun c hc => List.mem_takeWhile_imp hc) fun d hd => by
          have hnot := List.head?_dropWhile_not isNameChar cs
          rwa [hd] at hnot
        rwa [hjoin, ← chunks_reference hne] at hparts
      · rw [chunks_char hc]
        exact (ih _ (Nat.lt_succ_self _) hcs rfl).char hc

theorem Parts.tail {raw : List Char} {chunk : Chunk} {parts : List Chunk} (h : Parts raw (chunk :: parts)) :
    Parts (parts.flatMap Chunk.written) parts :=
  ⟨rfl, fun name hmem => h.names name (List.mem_cons_of_mem _ hmem), h.whole.tail,
    fun c hmem => h.between c (List.mem_cons_of_mem _ hmem)⟩

theorem not_nameChar_dollar : isNameChar '$' = false := by decide

/-- A reference ends where no name goes on. -/
theorem Parts.head_behind {raw name : List Char} {parts : List Chunk} (h : Parts raw (.reference name :: parts)) {c : Char}
    (hc : (parts.flatMap Chunk.written).head? = some c) : isNameChar c = false := by
  cases parts with
  | nil => cases hc
  | cons chunk parts =>
    cases chunk with
    | char d =>
      obtain rfl : d = c := by simpa [Chunk.written] using hc
      exact (List.isChain_cons_cons.1 h.whole).1 name d rfl rfl
    | reference other =>
      obtain rfl : '$' = c := by simpa [Chunk.written] using hc
      exact not_nameChar_dollar

/-- **There is one way to cut a text.** -/
theorem Parts.eq_chunks : ∀ {parts : List Chunk} {raw : List Char}, Parts raw parts → parts = chunks raw
  | [], raw, h => by
    rw [← h.written]
    rfl
  | .char c :: parts, raw, h => by
    have hraw : raw = c :: parts.flatMap Chunk.written := h.written.symm
    rw [hraw, chunks_char (h.between c List.mem_cons_self), ← h.tail.eq_chunks]
  | .reference name :: parts, raw, h => by
    have hraw : raw = '$' :: (name ++ parts.flatMap Chunk.written) := h.written.symm
    obtain ⟨hne, hname⟩ := h.names name List.mem_cons_self
    have htake : (parts.flatMap Chunk.written).takeWhile isNameChar = [] := by
      cases hrest : parts.flatMap Chunk.written with
      | nil => rfl
      | cons c cs =>
        have hc := h.head_behind (c := c) (by rw [hrest]; rfl)
        simp [hc]
    have hdrop : (parts.flatMap Chunk.written).dropWhile isNameChar = parts.flatMap Chunk.written := by
      have hjoin := List.takeWhile_append_dropWhile (p := isNameChar) (l := parts.flatMap Chunk.written)
      rwa [htake] at hjoin
    have hchunks := @chunks_reference (name ++ parts.flatMap Chunk.written)
    rw [List.takeWhile_append_of_pos hname, List.dropWhile_append_of_pos hname, htake, hdrop, List.append_nil] at hchunks
    rw [hraw, hchunks hne, ← h.tail.eq_chunks]

theorem parts_iff {raw : List Char} (h : referring raw = true) {parts : List Chunk} :
    Parts raw parts ↔ parts = chunks raw :=
  ⟨Parts.eq_chunks, fun he => he ▸ parts_chunks h⟩

/-! ## What a text resolves to -/

/-- **Nothing is left to resolve**, if the constants have nothing to resolve. -/
theorem Parts.not_mem_resolved {raw : List Char} {parts : List Chunk} (h : Parts raw parts)
    {get? : List Char → Option (List Char)} (hget : ∀ name lit, get? name = some lit → '$' ∉ lit) :
    '$' ∉ parts.flatMap (Chunk.text get?) := by
  rw [List.mem_flatMap]
  rintro ⟨chunk, hmem, hdollar⟩
  cases chunk with
  | char c => exact h.between c hmem (List.mem_singleton.1 hdollar).symm
  | reference name =>
    rw [Chunk.text, resolve] at hdollar
    cases hname : get? name with
    | some lit =>
      rw [hname] at hdollar
      exact hget name lit hname hdollar
    | none =>
      rw [hname] at hdollar
      have hin : '$' ∈ name := by simpa using hdollar
      have hyes := (h.names name hmem).2 '$' hin
      rw [not_nameChar_dollar] at hyes
      cases hyes

/-- A text as it is written by a statement, `full` being the text with its references replaced. -/
def Statement.collapse (o : Options) (s : Statement) (full : List Char) : List Char :=
  if o.compact then s.squeeze full else full

theorem Statement.visible_collapse (o : Options) (s : Statement) (full : List Char) :
    visible (s.collapse o full) = visible full := by
  unfold Statement.collapse
  split
  · cases s with
    | leaf item => exact Squeeze.visible_value full
    | heading heading => exact Squeeze.visible_params full
  · rfl

theorem mem_visible {c : Char} (hc : isBlank c = false) {cs : List Char} : c ∈ visible cs ↔ c ∈ cs := by
  simp [visible, hc]

/-- Squeezing moves blanks only, and a `$` is none. -/
theorem Statement.not_mem_collapse (o : Options) (s : Statement) {full : List Char} (h : '$' ∉ full) :
    '$' ∉ s.collapse o full := by
  have hvisible : isBlank '$' = false := by decide
  rwa [← mem_visible hvisible, Statement.visible_collapse, mem_visible hvisible]

/-! ## Scopes without references -/

/-- No constant has a `$` in it. -/
def Scopes.Plain (scopes : Scopes) : Prop := ∀ scope ∈ scopes, ∀ entry ∈ scope, '$' ∉ entry.2

instance (scopes : Scopes) : Decidable scopes.Plain := inferInstanceAs (Decidable (∀ scope ∈ scopes, ∀ entry ∈ scope, _))

theorem Scope.mem_of_get? {name lit : List Char} : ∀ {scope : Scope}, scope.get? name = some lit → (name, lit) ∈ scope
  | [], h => by cases h
  | (n, v) :: scope, h => by
    rw [Scope.get?, List.lookup_cons] at h
    by_cases hn : name = n
    · subst hn
      rw [beq_self_eq_true] at h
      cases h
      exact List.mem_cons_self
    · rw [beq_false_of_ne hn] at h
      exact List.mem_cons_of_mem _ (Scope.mem_of_get? h)

theorem Scope.mem_define {scope : Scope} {name value : List Char} {entry : List Char × List Char}
    (h : entry ∈ scope.define name value) : entry ∈ scope ∨ entry = (name, value) := by
  unfold Scope.define at h
  split at h
  · exact Or.inl h
  · simpa using h

namespace Scopes.Plain

variable {scopes : Scopes}

theorem get? (h : Plain scopes) {name lit : List Char} (hget : scopes.get? name = some lit) : '$' ∉ lit := by
  obtain ⟨scope, hscope, hlit⟩ := List.exists_of_findSome?_eq_some hget
  exact h scope hscope _ (Scope.mem_of_get? hlit)

theorem define {inner : Scope} {outer : Scopes} (h : Plain (inner :: outer)) {value : List Char} (hv : '$' ∉ value)
    (name : List Char) : Plain (inner.define name value :: outer) := by
  intro scope hscope entry hentry
  rcases List.mem_cons.1 hscope with rfl | hscope
  · rcases Scope.mem_define hentry with hin | rfl
    · exact h inner List.mem_cons_self entry hin
    · exact hv
  · exact h scope (List.mem_cons_of_mem _ hscope) entry hentry

theorem substitute (h : Plain scopes) {raw : List Char} (hraw : referring raw = true) :
    '$' ∉ scopes.substitute raw := by
  rw [Scopes.substitute, substitute_eq]
  exact (parts_chunks hraw).not_mem_resolved fun name lit => h.get?

end Scopes.Plain

/-! ## Along the walk -/

/-- Every `$` in what a statement says begins a reference. -/
def Statement.Referring (s : Statement) : Prop := ∀ f ∈ s.fields?, referring f.2 = true

instance (s : Statement) : Decidable s.Referring := inferInstanceAs (Decidable (∀ f ∈ s.fields?, _))

/-- A sheet of such statements. -/
def Forest.Referring (f : Sheet) : Prop := ∀ s ∈ f.preorder.map Prod.snd, s.Referring

instance (f : Sheet) : Decidable (Forest.Referring f) :=
  inferInstanceAs (Decidable (∀ s ∈ f.preorder.map Prod.snd, s.Referring))

namespace Forest

theorem map_snd_preorderFrom (f : Sheet) (j k : Nat) :
    (f.preorderFrom j).map Prod.snd = (f.preorderFrom k).map Prod.snd :=
  (Sheet.map_snd_seen {} f (.ofScopes [] []) j).symm.trans (Sheet.map_snd_seen {} f (.ofScopes [] []) k)

theorem referring_leaf {item : Leaf} {rest : Sheet} :
    Referring (.leaf item rest) ↔ (Statement.leaf item).Referring ∧ rest.Referring := by
  rw [Referring, preorder, preorderFrom, List.map_cons, List.forall_mem_cons]
  rfl

theorem referring_block {heading : Heading} {children rest : Sheet} : Referring (.block heading children rest) ↔
    (Statement.heading heading).Referring ∧ children.Referring ∧ rest.Referring := by
  rw [Referring, preorder, preorderFrom, List.map_cons, List.map_append, List.forall_mem_cons, List.forall_mem_append,
    map_snd_preorderFrom children (0 + 1) 0]
  rfl

end Forest

namespace Output

section

variable {o : Options} {depth : Nat} {nested : Bool} {out next : Output}

theorem emitLeaf_constant {name value : List Char} {comment : Option Comment}
    (h : (out.emitLeaf o depth nested (.define name value true comment) : Except (Stop Empty × Output) Output) = .ok next) :
    ∃ inner outer, out.scopes = inner :: outer ∧
      next = { out with scopes := inner.define name (out.value o value) :: outer } := by
  cases hs : out.scopes with
  | nil => simp [emitLeaf, define?, hs] at h
  | cons inner outer =>
    simp only [emitLeaf, define?, hs, Except.ok.injEq] at h
    exact ⟨inner, outer, rfl, h.symm⟩

theorem emitLeaf_scopes {item : Leaf} (hitem : ∀ name value comment, item ≠ .define name value true comment)
    (h : (out.emitLeaf o depth nested item : Except (Stop Empty × Output) Output) = .ok next) :
    next.scopes = out.scopes := by
  cases item with
  | declare property value comment =>
    cases h
    rfl
  | remark comment =>
    cases h
    split <;> rfl
  | define name value constant comment =>
    cases constant with
    | true => exact absurd rfl (hitem name value comment)
    | false =>
      cases h
      unfold emitVariable
      split <;> rfl

end

theorem scopes_openBlock (o : Options) (depth : Nat) (b : Block) (out : Output) :
    (out.openBlock o depth b).scopes = [] :: out.scopes := by
  unfold openBlock
  cases b.guarded <;> rfl

theorem scopes_closeBlock (o : Options) (depth : Nat) (b : Block) (out : Output) :
    (out.closeBlock o depth b).scopes = out.scopes.tail := by
  unfold closeBlock
  cases b.guarded <;> rfl

end Output

/-- The invariant of the walk. -/
structure Walk.Plain (w : Walk) : Prop where
  scopes : w.out.scopes.Plain
  todo : w.todo.Referring
  around : ∀ p ∈ w.around, p.rest.Referring

theorem Walk.Plain.next {o : Options} {w next : Walk} (h : w.Plain) (hn : w.next? o = some next) : next.Plain := by
  rcases next?_cases hn with ⟨p, around, -, haround, rfl⟩ | ⟨item, rest, out, htodo, hleaf, rfl⟩ |
    ⟨heading, children, rest, htodo, hblock⟩
  · have hall := h.around
    rw [haround, List.forall_mem_cons] at hall
    refine ⟨?_, hall.1, hall.2⟩
    intro scope hscope
    rw [Output.scopes_closeBlock] at hscope
    exact h.scopes scope (List.mem_of_mem_tail hscope)
  · have htext := h.todo
    rw [htodo, Forest.referring_leaf] at htext
    refine ⟨?_, htext.2, h.around⟩
    by_cases hitem : ∃ name value comment, item = .define name value true comment
    · -- a constant is resolved before it gets into its scope
      obtain ⟨name, value, comment, rfl⟩ := hitem
      obtain ⟨inner, outer, hs, rfl⟩ := Output.emitLeaf_constant hleaf
      have hscopes := h.scopes
      have hvalue : '$' ∉ w.out.value o value := Statement.not_mem_collapse o (.leaf (.define name value true comment))
        (hscopes.substitute (htext.1 (name, value) rfl))
      rw [hs] at hscopes
      exact hscopes.define hvalue name
    · rw [Output.emitLeaf_scopes (fun name value comment he => hitem ⟨name, value, comment, he⟩) hleaf]
      exact h.scopes
  · have htext := h.todo
    rw [htodo, Forest.referring_block] at htext
    obtain ⟨-, hchildren, hrest⟩ := htext
    rcases hblock with ⟨-, rfl⟩ | ⟨-, rfl⟩
    · refine ⟨?_, hchildren, List.forall_mem_cons.2 ⟨hrest, h.around⟩⟩
      intro scope hscope
      rw [Output.scopes_openBlock] at hscope
      rcases List.mem_cons.1 hscope with rfl | hscope
      · exact fun entry hentry => by cases hentry
      · exact h.scopes scope hscope
    · exact ⟨h.scopes, hrest, h.around⟩

theorem Walk.Plain.statement {w : Walk} (h : w.Plain) {s : Statement} (hs : w.statement? = some s) : s.Referring := by
  have htodo := h.todo
  rcases statement?_cases hs with ⟨item, rest, hw, rfl⟩ | ⟨heading, children, rest, hw, rfl⟩
  · rw [hw, Forest.referring_leaf] at htodo
    exact htodo.1
  · rw [hw, Forest.referring_block] at htodo
    exact htodo.1

/-! ## What is put out -/

/-- What is put out for a statement with `text` behind its name: a line, an entry of the root block, or a constant. -/
inductive Statement.Puts (o : Options) (text : List Char) (s : Statement) (before after : Output) : Prop
  | line {depth : Nat} {line : List Char} (shows : s.Shows o depth text line)
      (lines : after.lines = before.lines ++ [line]) (entries : after.rootVariables = before.rootVariables)
  | entry {line : List Char} (shows : s.Shows o 0 text line) (lines : after.lines = before.lines)
      (entries : after.rootVariables = before.rootVariables ++ [line])
  | constant {name value : List Char} {comment : Option Comment} {inner : Scope} {outer : Scopes}
      (define : s = .leaf (.define name value true comment)) (scopes : before.scopes = inner :: outer)
      (after_eq : after = { before with scopes := inner.define name text :: outer })

theorem Options.withComment_indent (o : Options) (depth : Nat) (name text : List Char) (comment : Option Comment) :
    o.withComment (o.indentAt depth ++ name ++ o.colon ++ text ++ [';']) comment =
      o.indentAt depth ++ o.withComment (name ++ o.colon ++ text ++ [';']) comment := by
  rw [← Options.withComment_append]
  simp only [List.append_assoc]

theorem Leaf.puts {o : Options} {depth : Nat} {nested : Bool} {item : Leaf} {out next : Output}
    (h : (out.emitLeaf o depth nested item : Except (Stop Empty × Output) Output) = .ok next) {f : List Char × List Char}
    (hf : (Statement.leaf item).fields? = some f) :
    (Statement.leaf item).Puts o ((Statement.leaf item).collapse o (out.scopes.substitute f.2)) out next := by
  cases item with
  | declare property value comment =>
    cases hf
    cases h
    have hshows := @Statement.Shows.declare o depth
      ((Statement.leaf (.declare property value comment)).collapse o (out.scopes.substitute value)) property value comment
    rw [← Options.withComment_indent] at hshows
    exact .line hshows rfl rfl
  | remark comment => cases hf
  | define name value constant comment =>
    cases hf
    cases constant with
    | true =>
      obtain ⟨inner, outer, hs, hnext⟩ := Output.emitLeaf_constant h
      exact .constant rfl hs hnext
    | false =>
      cases h
      unfold Output.emitVariable
      split
      · have hzero : o.indentAt 0 = [] := by
          unfold Options.indentAt
          split <;> rfl
        refine .entry ?_ rfl rfl
        have hshows := @Statement.Shows.define o 0
          ((Statement.leaf (.define name value false comment)).collapse o (out.scopes.substitute value)) name value comment
        rwa [hzero, List.nil_append] at hshows
      · exact .line .define rfl rfl

/-- A stack of scopes as an environment, also an empty one. -/
def Scopes.env (scopes : Scopes) : Env := { here := fun _ => none, around := scopes.get? }

theorem Heading.puts {o : Options} {depth : Nat} {nested : Bool} {heading : Heading} {out next : Output}
    (h : next = out.openBlock o depth (out.block o nested heading) ∨
      next = out.write (o.indentAt depth ++ (out.block o nested heading).heading ++ [';'])) {f : List Char × List Char}
    (hf : (Statement.heading heading).fields? = some f) :
    (Statement.heading heading).Puts o ((Statement.heading heading).collapse o (out.scopes.substitute f.2)) out next := by
  cases heading with
  | rule selector comment => cases hf
  | atRule name params comment =>
    cases hf
    obtain ⟨gap, hgap, he⟩ := o.atHeading_eq out.scopes.env name params
    have hshows : ∀ ending, ending = o.opening ∨ ending = [';'] →
        (Statement.heading (.atRule name params comment)).Shows o depth
          ((Statement.heading (.atRule name params comment)).collapse o (out.scopes.substitute params))
          (o.indentAt depth ++ o.withComment (o.atHeading out.scopes.substitute name params) comment ++ ending) := by
      intro ending hend
      change o.atHeading out.scopes.substitute name params = _ at he
      rw [he]
      exact .atRule hgap hend
    rcases h with rfl | rfl
    · exact .line (hshows _ (Or.inl rfl)) rfl rfl
    · exact .line (hshows _ (Or.inr rfl)) rfl rfl

theorem Walk.puts {o : Options} {w next : Walk} (hn : w.next? o = some next) {s : Statement} (hs : w.statement? = some s)
    {f : List Char × List Char} (hf : s.fields? = some f) :
    s.Puts o (s.collapse o (w.out.scopes.substitute f.2)) w.out next.out := by
  rcases next?_cases hn with ⟨_, _, htodo, -⟩ | ⟨item, rest, out, htodo, hout, rfl⟩ |
    ⟨heading, children, rest, htodo, hnext⟩
  · simp [statement?, htodo] at hs
  · obtain rfl : Statement.leaf item = s := by simpa [statement?, htodo] using hs
    exact Leaf.puts hout hf
  · obtain rfl : Statement.heading heading = s := by simpa [statement?, htodo] using hs
    rcases hnext with ⟨-, rfl⟩ | ⟨-, rfl⟩
    · exact Heading.puts (Or.inl rfl) hf
    · exact Heading.puts (Or.inr rfl) hf

/-- **Every reference is resolved.**  Emission goes from point to point; at each of them no constant in scope has a `$` in
it.  There is one way to cut the text of the statement that comes next into its references and the characters between
them.  Each reference is replaced by the innermost constant of its name or else by the custom property, each character
is left as it is, and what is put out has no `$` in it. -/
theorem Output.emit_resolves {o : Options} {f : Sheet} (hf : f.Referring) {out : Output} (hout : out.scopes.Plain)
    (depth : Nat) (nested : Bool) :
    (Walk.mk depth nested f [] out).Ends o (emit o depth nested f out) ∧
    ∀ w, Walk.Reaches o ⟨depth, nested, f, [], out⟩ w → w.out.scopes.Plain ∧
      ∀ s, w.statement? = some s → ∀ fields, s.fields? = some fields →
        ∃ parts full, (∀ ps, Parts fields.2 ps ↔ ps = parts) ∧ full = parts.flatMap (Chunk.text w.out.scopes.get?) ∧
          '$' ∉ full ∧ '$' ∉ s.collapse o full ∧
          ∀ next, w.next? o = some next → s.Puts o (s.collapse o full) w.out next.out := by
  refine ⟨emit_ends o f depth nested [] out, fun w hw => ?_⟩
  have hplain : w.Plain := hw.preserves Walk.Plain.next ⟨hout, hf, by simp⟩
  refine ⟨hplain.scopes, fun s hs fields hfields => ?_⟩
  have hreferring : referring fields.2 = true := hplain.statement hs fields hfields
  have hfull := hplain.scopes.substitute hreferring
  exact ⟨chunks fields.2, w.out.scopes.substitute fields.2, fun _ => parts_iff hreferring, substitute_eq _ _, hfull,
    s.not_mem_collapse o hfull, fun next hn => Walk.puts hn hs hfields⟩

/-- A constant made of another one, then a declaration with a reference to it and one to no constant. -/
theorem Output.emit_resolves_chain :
    let o : Options := {}
    let declare : Leaf := .declare "gap".toList "$double$no 1px".toList none
    let rule : Sheet := .block (.rule "a".toList none) (.leaf declare .nil) .nil
    let f : Sheet := .leaf (.define "base".toList "4px".toList true none)
      (.leaf (.define "double".toList "calc($base * 2)".toList true none) rule)
    let literals : Scope := [("base".toList, "4px".toList), ("double".toList, "calc(4px * 2)".toList)]
    let w : Walk := ⟨1, true, .leaf declare .nil, [⟨0, false, ⟨false, "a".toList, true⟩, .nil⟩], ⟨["a \x7b".toList], [], [[], literals]⟩⟩
    f.Referring ∧ Scopes.Plain [[]] ∧ Walk.Reaches o ⟨0, false, f, [], {}⟩ w ∧ w.out.scopes.Plain ∧
      ∃ parts full, (∀ ps, Parts "$double$no 1px".toList ps ↔ ps = parts) ∧
        full = parts.flatMap (Chunk.text w.out.scopes.get?) ∧ full = "calc(4px * 2)var(--no) 1px".toList ∧ '$' ∉ full ∧
        ∀ next, w.next? o = some next → (Statement.leaf declare).Puts o full w.out next.out := by
  intro o declare rule f literals w
  have hf : f.Referring := by decide
  have hout : ({} : Output).scopes.Plain := by decide
  have hw : Walk.Reaches o ⟨0, false, f, [], {}⟩ w := .head rfl (.head rfl (.single rfl))
  obtain ⟨hplain, htext⟩ := (emit_resolves hf hout 0 false).2 w hw
  obtain ⟨parts, full, hparts, hfull, hdollar, -, hputs⟩ := htext (.leaf declare) rfl _ rfl
  have hchunks : parts = chunks "$double$no 1px".toList := ((hparts parts).2 rfl).eq_chunks
  have hvalue : full = "calc(4px * 2)var(--no) 1px".toList := by
    rw [hfull, hchunks]
    decide
  exact ⟨hf, hout, hw, hplain, parts, full, hparts, hfull, hvalue, hdollar, hputs⟩

end Offside
