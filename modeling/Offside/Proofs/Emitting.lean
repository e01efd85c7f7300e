import Offside.Compile
import Offside.Proofs.Layout

/-!
# What holds of every line that is written

One walk over a sheet, done once.  A property of the constants, kept by each definition, holds of
every environment the walk comes to (`Env.Holds`), and so what follows from it for the line of one
statement holds of all lines (`Emits.evaluate`).
-/
namespace Offside

/-- Every constant that can be seen has the property, which may speak of its name. -/
def Env.Holds (V : List Char → List Char → Prop) (env : Env) : Prop := ∀ name value, env.get? name = some value → V name value

namespace Env.Holds

variable {V : List Char → List Char → Prop} {env : Env}

theorem nothing : (Env.ofScopes [] []).Holds V := by
  intro name value h
  simp [Env.get?, Env.ofScopes, Scope.get?, Scopes.get?] at h

theorem inside (h : env.Holds V) : env.inside.Holds V := h

theorem define (h : env.Holds V) {name value : List Char} (hv : V name value) : (env.define name value).Holds V := by
  intro n v hn
  unfold Env.define Env.get? at hn
  by_cases he : n = name
  · subst he
    cases hh : env.here n with
    | some old => exact h n v (by simpa [Env.get?, hh] using hn)
    | none =>
      obtain rfl : value = v := by simpa [hh] using hn
      exact hv
  · exact h n v (by simpa [Env.get?, he] using hn)

end Env.Holds

/-- The statements of a sheet, parents before their children, each with what is visible where it stands. -/
def Sheet.seen (o : Options) : Env → Sheet → List (Env × Statement)
  | _, .nil => []
  | env, .leaf item rest => (env, .leaf item) :: Sheet.seen o (env.after o item) rest
  | env, .block heading children rest =>
    (env, .heading heading) :: (Sheet.seen o env.inside children ++ Sheet.seen o env rest)
  | _, .foreign item _ => nomatch item

theorem Sheet.map_snd_seen (o : Options) : ∀ (f : Sheet) (env : Env) (k : Nat),
    (Sheet.seen o env f).map Prod.snd = (f.preorderFrom k).map Prod.snd
  | .nil, _, _ => rfl
  | .leaf item rest, env, k => by
    rw [Sheet.seen, Forest.preorderFrom, List.map_cons, List.map_cons, Sheet.map_snd_seen o rest _ k]
  | .block heading children rest, env, k => by
    rw [Sheet.seen, Forest.preorderFrom, List.map_cons, List.map_cons, List.map_append, List.map_append,
      Sheet.map_snd_seen o children _ (k + 1), Sheet.map_snd_seen o rest env k]

theorem Sheet.mem_of_seen {o : Options} {f : Sheet} {env : Env} {s : Env × Statement} (h : s ∈ Sheet.seen o env f) :
    s.2 ∈ f.preorder.map Prod.snd := by
  have hall := Sheet.map_snd_seen o f env 0
  rw [Forest.preorder, ← hall]
  exact List.mem_map_of_mem h

theorem Leaf.line?_cases {o : Options} {root : Bool} {env : Env} {item : Leaf} {text : List Char}
    (h : item.line? o root env = some text) :
    (∃ property value comment, item = .declare property value comment ∧ text = o.entry env property value comment) ∨
    (∃ name value comment, item = .define name value false comment ∧ text = o.entry env ('-' :: '-' :: name) value comment) ∨
    ∃ comment, item = .remark comment ∧ o.compact = false ∧ text = comment.render := by
  unfold Leaf.line? at h
  split at h
  · exact Or.inl ⟨_, _, _, rfl, (Option.some.inj h).symm⟩
  · cases h
  · split at h
    · cases h
    · exact Or.inr (Or.inl ⟨_, _, _, rfl, (Option.some.inj h).symm⟩)
  · split at h
    · cases h
    · rename_i hcompact
      exact Or.inr (Or.inr ⟨_, rfl, by simpa using hcompact, (Option.some.inj h).symm⟩)

theorem Leaf.rootLine?_cases {o : Options} {root : Bool} {env : Env} {item : Leaf} {text : List Char}
    (h : item.rootLine? o root env = some text) :
    ∃ name value comment, item = .define name value false comment ∧
      text = o.entry env ('-' :: '-' :: name) value comment := by
  unfold Leaf.rootLine? at h
  split at h
  · split at h
    · exact ⟨_, _, _, rfl, (Option.some.inj h).symm⟩
    · cases h
  · cases h

/-- **What each statement has to do for a property of the lines.**  `S` is known of the statements where they stand, `V` of
the constants; `Q` is to hold of the lines, `R` of the entries of the root block. -/
structure Emits (o : Options) (S : Env → Statement → Prop) (V : List Char → List Char → Prop) (Q R : List Char → Prop) :
    Prop where
  constant : ∀ {env : Env} {name value : List Char} {comment : Option Comment}, env.Holds V →
    S env (.leaf (.define name value true comment)) → V name (o.value (env.substitute value))
  leaf : ∀ {env : Env} {item : Leaf} {root : Bool} {text : List Char}, env.Holds V → S env (.leaf item) →
    item.line? o root env = some text → ∀ depth, Q (o.indentAt depth ++ text)
  entry : ∀ {env : Env} {item : Leaf} {root : Bool} {text : List Char}, env.Holds V → S env (.leaf item) →
    item.rootLine? o root env = some text → R text
  heading : ∀ {env : Env} {h : Heading}, env.Holds V → S env (.heading h) → ∀ nested depth,
    Q (o.indentAt depth ++ o.title env nested h ++ o.opening) ∧ Q (o.indentAt depth ++ o.title env nested h ++ [';'])
  guard : ∀ depth, Q (o.indentAt depth ++ o.guardHeading ++ o.opening)
  closing : ∀ depth, Q (o.closing depth)

namespace Emits

variable {o : Options} {S : Env → Statement → Prop} {V : List Char → List Char → Prop} {Q R : List Char → Prop}

theorem after (h : Emits o S V Q R) {env : Env} (henv : env.Holds V) {item : Leaf} (hs : S env (.leaf item)) :
    (env.after o item).Holds V := by
  unfold Env.after
  split
  · exact henv.define (h.constant henv hs)
  · exact henv

theorem openLines (h : Emits o S V Q R) {env : Env} (henv : env.Holds V) {heading : Heading} (hs : S env (.heading heading))
    (nested : Bool) (depth : Nat) :
    ∀ line ∈ Offside.openLines o depth (o.block env.substitute nested heading), Q line := by
  intro line hl
  rw [Options.block_eq, Offside.openLines] at hl
  rcases List.mem_append.1 hl with hl | hl
  · split at hl
    · rw [List.mem_singleton.1 hl]
      exact h.guard depth
    · cases hl
  · rw [List.mem_singleton.1 hl]
    exact (h.heading henv hs nested _).1

theorem closeLines (h : Emits o S V Q R) (b : Block) (depth : Nat) : ∀ line ∈ Offside.closeLines o depth b, Q line := by
  intro line hl
  unfold Offside.closeLines at hl
  rcases List.mem_append.1 hl with hl | hl
  · rw [List.mem_singleton.1 hl]
    exact h.closing _
  · split at hl
    · rw [List.mem_singleton.1 hl]
      exact h.closing depth
    · cases hl

/-- **The walk.** -/
theorem evaluate (h : Emits o S V Q R) : ∀ (f : Sheet) (depth : Nat) (nested : Bool) (env : Env), env.Holds V →
    (∀ s ∈ Sheet.seen o env f, S s.1 s.2) →
      (∀ line ∈ (Offside.evaluate o depth nested env f).lines, Q line) ∧
        ∀ line ∈ (Offside.evaluate o depth nested env f).rootVariables, R line
  | .nil, _, _, _, _, _ => by simp [Offside.evaluate]
  | .leaf item rest, depth, nested, env, henv, hf => by
    rw [Sheet.seen, List.forall_mem_cons] at hf
    obtain ⟨hitem, hrest⟩ := hf
    obtain ⟨hlines, hroot⟩ := evaluateLeaf_eq o depth nested env item
    have ih := h.evaluate rest depth nested _ (h.after henv hitem) hrest
    rw [Offside.evaluate]
    simp only [Emitted.lines_append, Emitted.rootVariables_append, List.forall_mem_append, hlines, hroot]
    refine ⟨⟨fun line hl => ?_, ih.1⟩, fun line hl => ?_, ih.2⟩
    · obtain ⟨text, ht, rfl⟩ := List.mem_map.1 hl
      exact h.leaf henv hitem (Option.mem_toList.1 ht) depth
    · exact h.entry henv hitem (Option.mem_toList.1 hl)
  | .block heading children rest, depth, nested, env, henv, hf => by
    rw [Sheet.seen, List.forall_mem_cons, List.forall_mem_append] at hf
    obtain ⟨hheading, hchildren, hrest⟩ := hf
    have ih := h.evaluate rest depth nested env henv hrest
    rw [Offside.evaluate]
    split
    · have ih' := h.evaluate children ((o.block env.substitute nested heading).depth depth + 1)
        (o.block env.substitute nested heading).nested _ henv.inside hchildren
      simp only [Emitted.lines_append, Emitted.rootVariables_append, Emitted.ofLines, List.forall_mem_append]
      exact ⟨⟨⟨⟨h.openLines henv hheading nested depth, ih'.1⟩, h.closeLines _ depth⟩, ih.1⟩,
        ⟨⟨by simp, ih'.2⟩, by simp⟩, ih.2⟩
    · rw [Options.block_eq]
      simp only [Emitted.lines_append, Emitted.rootVariables_append, Emitted.ofLines, List.forall_mem_append]
      exact ⟨⟨by simpa using (h.heading henv hheading nested depth).2, ih.1⟩, by simp, ih.2⟩

end Emits

/-! ## A whole sheet -/

theorem compileAll_ok {o : Options} {source : List Char} {c : Compilation} (h : compileAll o source = .ok c) :
    ∃ r : Reader, readLines o.compact (prepare o.compact source) = (r, .ok ()) ∧
      c = { lines := prepare o.compact source, logical := r.logical, sheet := r.sheet, css := Sheet.css o r.sheet } := by
  unfold compileAll at h
  simp only at h
  split at h
  · cases h
  · rename_i r hread
    exact ⟨r, hread, (Except.ok.inj h).symm⟩

theorem compileAll_of_map {α : Type} {f : Compilation → α} {o : Options} {source : List Char} {a : α}
    (h : (compileAll o source).map f = .ok a) : ∃ c, compileAll o source = .ok c ∧ f c = a := by
  cases hc : compileAll o source with
  | error fault => simp [hc, Except.map] at h
  | ok c => exact ⟨c, rfl, by simpa [hc, Except.map] using h⟩

theorem compile_ok {o : Options} {source css : List Char} (h : compile o source = .ok css) :
    ∃ c, compileAll o source = .ok c ∧ c.css = css :=
  compileAll_of_map h

/-- What a sheet is written as, and that nothing stops its emission. -/
theorem Output.emit_sheet (o : Options) (f : Sheet) : ∃ out : Output,
    Output.emit o 0 false f {} = .ok out ∧ Sheet.css o f = out.render o ∧
      out.lines = (Offside.evaluate o 0 false (.ofScopes [] []) f).lines ∧
      out.rootVariables = (Offside.evaluate o 0 false (.ofScopes [] []) f).rootVariables := by
  obtain ⟨gained, hemit, -⟩ := Output.emit_eq_evaluate o f 0 false [] [] [] []
  refine ⟨_, hemit, ?_, by simp, by simp⟩
  unfold Sheet.css
  rw [hemit]

/-- What every line of a sheet comes to. -/
theorem Emits.sheet {o : Options} {S : Env → Statement → Prop} {V : List Char → List Char → Prop}
    {Q R : List Char → Prop} (h : Emits o S V Q R) {f : Sheet}
    (hf : ∀ s ∈ Sheet.seen o (.ofScopes [] []) f, S s.1 s.2) : ∃ out : Output,
      Output.emit o 0 false f {} = .ok out ∧ Sheet.css o f = out.render o ∧ (∀ line ∈ out.lines, Q line) ∧
        ∀ line ∈ out.rootVariables, R line := by
  obtain ⟨out, hemit, hcss, hlines, hroot⟩ := Output.emit_sheet o f
  obtain ⟨hq, hr⟩ := h.evaluate f 0 false _ Env.Holds.nothing hf
  exact ⟨out, hemit, hcss, by rwa [hlines], by rwa [hroot]⟩

end Offside
