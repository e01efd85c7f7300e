import Offside.Output

/-!
# Lexical scoping

Emission keeps its constants in a stack of scopes that it changes as it goes.  Here
is what that stack amounts to: an evaluator that hands an environment down, and
writes the same (`emit_eq_evaluate`).  The environment has two parts, the constants
defined so far in the block at hand and what was visible where the block begins, so
the rules of visibility are the evaluator's own equations:

- a constant is visible to what follows it in its block, and inside that;
- within a block the first definition of a name stands, and it hides those around;
- what follows a block is evaluated in the environment from before it.
-/
namespace Offside

/-! ## Environments -/

/-- What is visible at a point of a block. -/
structure Env where
  /-- The constants defined in the block so far. -/
  here : List Char → Option (List Char)
  /-- The constants visible where the block begins. -/
  around : List Char → Option (List Char)

namespace Env

def get? (env : Env) (name : List Char) : Option (List Char) := (env.here name).or (env.around name)

/-- A name that the block has defined keeps its value. -/
def define (env : Env) (name value : List Char) : Env :=
  { env with here := fun n => if n = name then (env.here n).or (some value) else env.here n }

/-- Where a block nested at this point begins. -/
def inside (env : Env) : Env := { here := fun _ => none, around := env.get? }

def substitute (env : Env) (cs : List Char) : List Char := Offside.substitute env.get? cs

end Env

/-! ## The evaluator -/

/-- What a forest comes to. -/
structure Emitted where
  lines : List (List Char) := []
  rootVariables : List (List Char) := []

namespace Emitted

def append (a b : Emitted) : Emitted :=
  { lines := a.lines ++ b.lines, rootVariables := a.rootVariables ++ b.rootVariables }

instance : Append Emitted := ⟨append⟩

def ofLines (lines : List (List Char)) : Emitted := { lines := lines }

@[simp] theorem lines_append (a b : Emitted) : (a ++ b).lines = a.lines ++ b.lines := rfl

@[simp] theorem rootVariables_append (a b : Emitted) :
    (a ++ b).rootVariables = a.rootVariables ++ b.rootVariables := rfl

end Emitted

def openLines (o : Options) (depth : Nat) (b : Block) : List (List Char) :=
  (if b.guarded then [o.indentAt depth ++ o.guardHeading ++ o.opening] else []) ++
    [o.indentAt (b.depth depth) ++ b.heading ++ o.opening]

def closeLines (o : Options) (depth : Nat) (b : Block) : List (List Char) :=
  [o.closing (b.depth depth)] ++ if b.guarded then [o.closing depth] else []

/-- What a leaf comes to.  A constant comes to nothing. -/
def evaluateLeaf (o : Options) (depth : Nat) (nested : Bool) (env : Env) : Leaf → Emitted
  | .declare property value comment =>
    .ofLines [o.withComment (o.indentAt depth ++ property ++ o.colon ++ o.value (env.substitute value) ++ [';']) comment]
  | .define _ _ true _ => {}
  | .define name value false comment =>
    let line := o.withComment ('-' :: '-' :: name ++ o.colon ++ o.value (env.substitute value) ++ [';']) comment
    if depth = 0 && !nested then { rootVariables := [line] } else .ofLines [o.indentAt depth ++ line]
  | .remark comment => if o.compact then {} else .ofLines [o.indentAt depth ++ comment.render]

/-- The environment behind a leaf. -/
def Env.after (o : Options) (env : Env) : Leaf → Env
  | .define name value true _ => env.define name (o.value (env.substitute value))
  | _ => env

/-- **The evaluator.**  No environment ever comes back up. -/
def evaluate (o : Options) : (depth : Nat) → (nested : Bool) → Env → Sheet → Emitted
  | _, _, _, .nil => {}
  | depth, nested, env, .leaf item rest =>
    evaluateLeaf o depth nested env item ++ evaluate o depth nested (env.after o item) rest
  | depth, nested, env, .block heading children rest =>
    let b := o.block env.substitute nested heading
    (if Output.opens heading children then
      .ofLines (openLines o depth b) ++ evaluate o (b.depth depth + 1) b.nested env.inside children ++
        .ofLines (closeLines o depth b)
    else .ofLines [o.indentAt depth ++ b.heading ++ [';']]) ++
      evaluate o depth nested env rest
  | _, _, _, .foreign item _ => nomatch item

/-- The names of the constants among the trees of a forest, in order. -/
def Forest.constants : Sheet → List (List Char)
  | .nil => []
  | .leaf (.define name _ true _) rest => name :: constants rest
  | .leaf _ rest => constants rest
  | .block _ _ rest => constants rest
  | .foreign item _ => nomatch item

/-! ## Scopes as environments -/

/-- What a stack of scopes amounts to. -/
def Env.ofScopes (inner : Scope) (outer : Scopes) : Env := { here := inner.get?, around := outer.get? }

theorem Scopes.get?_cons (inner : Scope) (outer : Scopes) (name : List Char) :
    Scopes.get? (inner :: outer) name = (Env.ofScopes inner outer).get? name := by
  rw [Scopes.get?, List.findSome?_cons, Env.get?, Env.ofScopes]
  cases h : inner.get? name <;> simp [h, Scopes.get?]

theorem Scopes.substitute_cons (inner : Scope) (outer : Scopes) :
    Scopes.substitute (inner :: outer) = (Env.ofScopes inner outer).substitute := by
  have hget : Scopes.get? (inner :: outer) = (Env.ofScopes inner outer).get? := funext (Scopes.get?_cons inner outer)
  funext cs
  rw [Scopes.substitute, hget, Env.substitute]

/-- Opening a scope is going inside. -/
theorem Env.ofScopes_nil (inner : Scope) (outer : Scopes) :
    Env.ofScopes [] (inner :: outer) = (Env.ofScopes inner outer).inside := by
  rw [Env.inside, ← funext (Scopes.get?_cons inner outer)]
  rfl

theorem Scope.get?_define (scope : Scope) (name value n : List Char) :
    (scope.define name value).get? n = if n = name then (scope.get? n).or (some value) else scope.get? n := by
  unfold Scope.define
  split
  · rename_i old h
    split
    · rename_i he
      rw [he, h]
      rfl
    · rfl
  · rename_i h
    rw [Scope.get?, List.lookup_append]
    split
    · rename_i he
      rw [he, ← Scope.get?, h]
      simp
    · rename_i hne
      simp [List.lookup_cons, beq_false_of_ne hne, Scope.get?]

theorem Env.ofScopes_define (inner : Scope) (outer : Scopes) (name value : List Char) :
    Env.ofScopes (inner.define name value) outer = (Env.ofScopes inner outer).define name value := by
  rw [Env.ofScopes, funext (Scope.get?_define inner name value)]
  rfl

/-! ## Emission -/

namespace Output

/-- The innermost scope behind a leaf. -/
def scopeAfter (o : Options) (inner : Scope) (outer : Scopes) : Leaf → Scope
  | .define name value true _ => inner.define name (o.value (Scopes.substitute (inner :: outer) value))
  | _ => inner

theorem ofScopes_scopeAfter (o : Options) (inner : Scope) (outer : Scopes) (item : Leaf) :
    Env.ofScopes (scopeAfter o inner outer item) outer = (Env.ofScopes inner outer).after o item := by
  unfold scopeAfter
  split
  · rw [Env.ofScopes_define, Scopes.substitute_cons]
    rfl
  · rename_i h
    unfold Env.after
    split
    · rename_i name value comment
      exact absurd rfl (h name value comment)
    · rfl

/-- What is held when a part has been emitted. -/
def extend (lines rootVariables : List (List Char)) (e : Emitted) (scopes : Scopes) : Output :=
  { lines := lines ++ e.lines, rootVariables := rootVariables ++ e.rootVariables, scopes := scopes }

/-- **A leaf is emitted as it is evaluated**, and defines at most itself. -/
theorem emitLeaf_eq (o : Options) (depth : Nat) (nested : Bool) (item : Leaf) (lines rootVariables : List (List Char))
    (inner : Scope) (outer : Scopes) :
    emitLeaf o depth nested item { lines := lines, rootVariables := rootVariables, scopes := inner :: outer } =
      (.ok (extend lines rootVariables (evaluateLeaf o depth nested (.ofScopes inner outer) item)
        (scopeAfter o inner outer item :: outer)) : Except (Stop Empty × Output) Output) := by
  have hv : ∀ raw, Output.value o { lines := lines, rootVariables := rootVariables, scopes := inner :: outer } raw =
      o.value ((Env.ofScopes inner outer).substitute raw) := by
    intro raw
    rw [Output.value, Scopes.substitute_cons]
  cases item with
  | declare property value comment =>
    simp only [emitLeaf, hv]
    simp [evaluateLeaf, extend, write, scopeAfter, Emitted.ofLines]
  | define name value constant comment =>
    cases constant with
    | true =>
      simp only [emitLeaf, hv]
      simp [evaluateLeaf, extend, define?, scopeAfter, Scopes.substitute_cons]
    | false =>
      simp only [emitLeaf, hv, emitVariable, evaluateLeaf]
      split
      · simp [extend, scopeAfter]
      · simp [extend, scopeAfter, write, Emitted.ofLines]
  | remark comment =>
    simp only [emitLeaf, evaluateLeaf]
    split
    · simp [extend, scopeAfter]
    · simp [extend, scopeAfter, write, Emitted.ofLines]

theorem openBlock_eq (o : Options) (depth : Nat) (b : Block) (lines rootVariables : List (List Char))
    (scopes : Scopes) :
    openBlock o depth b { lines := lines, rootVariables := rootVariables, scopes := scopes } =
      { lines := lines ++ openLines o depth b, rootVariables := rootVariables, scopes := [] :: scopes } := by
  unfold openBlock openLines
  cases b.guarded <;> simp [write, openScope]

/-- Closing a block drops its scope, whatever it has come to hold. -/
theorem closeBlock_eq (o : Options) (depth : Nat) (b : Block) (lines rootVariables : List (List Char)) (scope : Scope)
    (scopes : Scopes) :
    closeBlock o depth b { lines := lines, rootVariables := rootVariables, scopes := scope :: scopes } =
      { lines := lines ++ closeLines o depth b, rootVariables := rootVariables, scopes := scopes } := by
  unfold closeBlock closeLines
  cases b.guarded <;> simp [write, closeScope]

/-- What a run over a forest adds to the innermost scope: each name once, and those names that are direct constants of
the forest and were not there. -/
structure Gains (inner : Scope) (f : Sheet) (gained : Scope) : Prop where
  once : (gained.map Prod.fst).Nodup
  names : ∀ n, n ∈ gained.map Prod.fst ↔ n ∈ f.constants ∧ inner.get? n = none

theorem Gains.nil (inner : Scope) : Gains inner .nil [] where
  once := List.nodup_nil
  names n := by simp [Forest.constants]

/-- A constant in front adds its own name, unless it was there. -/
theorem Gains.define {inner : Scope} {name value : List Char} {rest : Sheet} {gained : Scope}
    (h : Gains (inner.define name value) rest gained) (raw : List Char) (comment : Option Comment) :
    ∃ more, inner.define name value ++ gained = inner ++ more ∧
      Gains inner (.leaf (.define name raw true comment) rest) more := by
  have hget := Scope.get?_define inner name value
  cases hn : inner.get? name with
  | some old =>
    have hd : inner.define name value = inner := by simp [Scope.define, hn]
    rw [hd] at h ⊢
    refine ⟨gained, rfl, h.once, fun n => ?_⟩
    rw [h.names n, Forest.constants, List.mem_cons]
    constructor
    · rintro ⟨hm, hnone⟩
      exact ⟨Or.inr hm, hnone⟩
    · rintro ⟨rfl | hm, hnone⟩
      · rw [hn] at hnone
        cases hnone
      · exact ⟨hm, hnone⟩
  | none =>
    have hd : inner.define name value = inner ++ [(name, value)] := by simp [Scope.define, hn]
    have hself : (inner.define name value).get? name ≠ none := by simp [hget, hn]
    refine ⟨(name, value) :: gained, by rw [hd, List.append_assoc, List.singleton_append], ?_, fun n => ?_⟩
    · rw [List.map_cons, List.nodup_cons]
      exact ⟨fun hm => hself ((h.names name).1 hm).2, h.once⟩
    · rw [List.map_cons, List.mem_cons, h.names n, Forest.constants, List.mem_cons, hget n]
      by_cases he : n = name
      · simp [he, hn]
      · simp [he]

theorem Gains.leaf {o : Options} {inner : Scope} {outer : Scopes} {item : Leaf} {rest : Sheet} {gained : Scope}
    (h : Gains (scopeAfter o inner outer item) rest gained) :
    ∃ more, scopeAfter o inner outer item ++ gained = inner ++ more ∧ Gains inner (.leaf item rest) more := by
  cases item with
  | define name value constant comment =>
    cases constant with
    | true => exact h.define value comment
    | false => exact ⟨gained, rfl, h.once, h.names⟩
  | declare property value comment => exact ⟨gained, rfl, h.once, h.names⟩
  | remark comment => exact ⟨gained, rfl, h.once, h.names⟩

/-- **Emission with a stack of scopes is evaluation in an environment.**  The stack comes back with all its scopes; only
the innermost one has grown, by the constants that stand in the forest itself. -/
theorem emit_eq_evaluate (o : Options) : ∀ (f : Sheet) (depth : Nat) (nested : Bool)
    (lines rootVariables : List (List Char)) (inner : Scope) (outer : Scopes), ∃ gained : Scope,
      emit o depth nested f { lines := lines, rootVariables := rootVariables, scopes := inner :: outer } =
        .ok { lines := lines ++ (evaluate o depth nested (.ofScopes inner outer) f).lines,
              rootVariables := rootVariables ++ (evaluate o depth nested (.ofScopes inner outer) f).rootVariables,
              scopes := (inner ++ gained) :: outer } ∧
      Gains inner f gained
  | .nil, depth, nested, lines, rootVariables, inner, outer =>
    ⟨[], by simp [emit, evaluate], Gains.nil inner⟩
  | .leaf item rest, depth, nested, lines, rootVariables, inner, outer => by
    obtain ⟨gained, hrest, hg⟩ := emit_eq_evaluate o rest depth nested
      (lines ++ (evaluateLeaf o depth nested (.ofScopes inner outer) item).lines)
      (rootVariables ++ (evaluateLeaf o depth nested (.ofScopes inner outer) item).rootVariables)
      (scopeAfter o inner outer item) outer
    obtain ⟨more, hmore, hgains⟩ := hg.leaf
    refine ⟨more, ?_, hgains⟩
    rw [emit, emitLeaf_eq]
    simp only [extend]
    rw [hrest, hmore, ofScopes_scopeAfter, evaluate]
    simp
  | .block heading children rest, depth, nested, lines, rootVariables, inner, outer => by
    generalize hb : o.block (Env.ofScopes inner outer).substitute nested heading = b
    have hblock : block o nested { lines := lines, rootVariables := rootVariables, scopes := inner :: outer } heading =
        b := by
      rw [block, Scopes.substitute_cons, hb]
    rw [emit, hblock, evaluate, hb]
    split
    · obtain ⟨inside, hchildren, -⟩ := emit_eq_evaluate o children (b.depth depth + 1) b.nested
        (lines ++ openLines o depth b) rootVariables [] (inner :: outer)
      rw [openBlock_eq, hchildren, Env.ofScopes_nil]
      simp only
      rw [closeBlock_eq]
      -- the children's scope is gone, and what follows starts from the scopes before the block
      obtain ⟨gained, hrest, hg⟩ := emit_eq_evaluate o rest depth nested _ _ inner outer
      refine ⟨gained, hrest.trans ?_, hg.once, hg.names⟩
      simp [Emitted.ofLines]
    · obtain ⟨gained, hrest, hg⟩ := emit_eq_evaluate o rest depth nested
        (lines ++ [o.indentAt depth ++ b.heading ++ [';']]) rootVariables inner outer
      refine ⟨gained, hrest.trans ?_, hg.once, hg.names⟩
      simp [Emitted.ofLines]

end Output

end Offside
