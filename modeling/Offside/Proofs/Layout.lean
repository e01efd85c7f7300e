import Offside.Proofs.Scoping

/-!
# The blocks of the output

Emission writes one line after the other.  What it writes are the lines of a forest of
blocks (`Layout.lines`), each closed at the depth where it was opened, and that forest can
be read off the sheet without a guard in it (`Sheet.layout`).  Guarding puts one block
around each rule that asks for hovering (`Layout.guard`), and moves what is inside.
-/
namespace Offside

/-- Lines and blocks as they are written, in the first-child, next-sibling form. -/
inductive Layout
  | nil
  | line (text : List Char) (rest : Layout)
  /-- `rule` is the selector, if the block is a rule's. -/
  | block (rule : Option (List Char)) (heading : List Char) (children rest : Layout)
deriving DecidableEq, Repr

namespace Layout

/-- The lines, indented by their depth.  A block's brace closes at the depth of its heading. -/
def lines (o : Options) : (depth : Nat) → Layout → List (List Char)
  | _, nil => []
  | depth, line text rest => (o.indentAt depth ++ text) :: rest.lines o depth
  | depth, block _ heading children rest =>
    (o.indentAt depth ++ heading ++ o.opening) ::
      (children.lines o (depth + 1) ++ o.closing depth :: rest.lines o depth)

/-- Puts a block with the given heading around each rule that asks for hovering. -/
def guard (around : List Char) : Layout → Layout
  | nil => nil
  | line text rest => line text (rest.guard around)
  | block rule heading children rest =>
    if rule.any Selector.hasHover then
      block none around (block rule heading (children.guard around) nil) (rest.guard around)
    else block rule heading (children.guard around) (rest.guard around)

/-- Guarded, if the options ask for it. -/
def guarded (o : Options) (t : Layout) : Layout := if o.hoverGuard then t.guard o.guardHeading else t

@[simp] theorem guarded_nil (o : Options) : guarded o nil = nil := by
  unfold guarded
  split <;> rfl

@[simp] theorem guarded_line (o : Options) (text : List Char) (rest : Layout) :
    guarded o (line text rest) = line text (guarded o rest) := by
  unfold guarded
  split <;> rfl

theorem guarded_block (o : Options) (rule : Option (List Char)) (heading : List Char) (children rest : Layout) :
    guarded o (block rule heading children rest) =
      if o.hoverGuard && rule.any Selector.hasHover then
        block none o.guardHeading (block rule heading (guarded o children) nil) (guarded o rest)
      else block rule heading (guarded o children) (guarded o rest) := by
  unfold guarded
  cases o.hoverGuard <;> simp [guard]

end Layout

/-! ## The layout of a sheet -/

/-- A declaration or a variable as it is written, without indentation. -/
def Options.entry (o : Options) (env : Env) (name value : List Char) (comment : Option Comment) : List Char :=
  o.withComment (name ++ o.colon ++ o.value (env.substitute value) ++ [';']) comment

/-- The line of a leaf, if it is written here; `root` says that variables go to the root block. -/
def Leaf.line? (o : Options) (root : Bool) (env : Env) : Leaf → Option (List Char)
  | .declare property value comment => some (o.entry env property value comment)
  | .define _ _ true _ => none
  | .define name value false comment => if root then none else some (o.entry env ('-' :: '-' :: name) value comment)
  | .remark comment => if o.compact then none else some comment.render

/-- The entry of a leaf in the root block. -/
def Leaf.rootLine? (o : Options) (root : Bool) (env : Env) : Leaf → Option (List Char)
  | .define name value false comment => if root then some (o.entry env ('-' :: '-' :: name) value comment) else none
  | _ => none

/-- A heading with its comment. -/
def Options.title (o : Options) (env : Env) (nested : Bool) : Heading → List Char
  | .rule selector comment => o.withComment (Selector.normalise nested o.compact selector) comment
  | .atRule name params comment => o.withComment (o.atHeading env.substitute name params) comment

/-- The selector of a rule. -/
def Options.selector? (o : Options) (nested : Bool) : Heading → Option (List Char)
  | .rule selector _ => some (Selector.normalise nested o.compact selector)
  | .atRule _ _ _ => none

/-- Whether what lies under a heading is inside a rule. -/
def Heading.nests (nested : Bool) : Heading → Bool
  | .rule _ _ => true
  | .atRule _ _ _ => nested

/-- **The blocks of a sheet**, without guards. -/
def Sheet.layout (o : Options) : (root nested : Bool) → Env → Sheet → Layout
  | _, _, _, .nil => .nil
  | root, nested, env, .leaf item rest =>
    match item.line? o root env with
    | some text => .line text (Sheet.layout o root nested (env.after o item) rest)
    | none => Sheet.layout o root nested (env.after o item) rest
  | root, nested, env, .block heading children rest =>
    if Output.opens heading children then
      .block (o.selector? nested heading) (o.title env nested heading)
        (Sheet.layout o false (heading.nests nested) env.inside children) (Sheet.layout o root nested env rest)
    else .line (o.title env nested heading ++ [';']) (Sheet.layout o root nested env rest)
  | _, _, _, .foreign item _ => nomatch item

/-- The entries of the root block. -/
def Sheet.rootLines (o : Options) (root : Bool) : Env → Sheet → List (List Char)
  | _, .nil => []
  | env, .leaf item rest => (item.rootLine? o root env).toList ++ Sheet.rootLines o root (env.after o item) rest
  | env, .block _ _ rest => Sheet.rootLines o root env rest
  | _, .foreign item _ => nomatch item

theorem Sheet.rootLines_false (o : Options) : ∀ (env : Env) (f : Sheet), Sheet.rootLines o false env f = []
  | _, .nil => rfl
  | env, .leaf item rest => by
    have hitem : item.rootLine? o false env = none := by
      unfold Leaf.rootLine?
      split <;> rfl
    rw [Sheet.rootLines, hitem, Sheet.rootLines_false o _ rest]
    rfl
  | env, .block _ _ rest => Sheet.rootLines_false o env rest

/-! ## Emission -/

theorem Options.withComment_append (o : Options) (a b : List Char) (comment : Option Comment) :
    o.withComment (a ++ b) comment = a ++ o.withComment b comment := by
  unfold Options.withComment
  split
  · split <;> simp
  · rfl

/-- Whether variables go to the root block. -/
def atRoot (depth : Nat) (nested : Bool) : Bool := depth = 0 && !nested

theorem evaluateLeaf_eq (o : Options) (depth : Nat) (nested : Bool) (env : Env) (item : Leaf) :
    (evaluateLeaf o depth nested env item).lines =
        (item.line? o (atRoot depth nested) env).toList.map (o.indentAt depth ++ ·) ∧
      (evaluateLeaf o depth nested env item).rootVariables = (item.rootLine? o (atRoot depth nested) env).toList := by
  cases item with
  | declare property value comment =>
    refine ⟨?_, rfl⟩
    simp only [evaluateLeaf, Emitted.ofLines, Leaf.line?, Options.entry, Option.toList_some, List.map_singleton]
    rw [List.append_assoc, List.append_assoc, List.append_assoc, Options.withComment_append]
    simp
  | define name value constant comment =>
    cases constant with
    | true => exact ⟨rfl, rfl⟩
    | false =>
      simp only [evaluateLeaf, Leaf.line?, Leaf.rootLine?, Options.entry]
      by_cases h : (depth = 0 && !nested) = true
      · simp [atRoot, h]
      · simp [atRoot, h, Emitted.ofLines]
  | remark comment =>
    refine ⟨?_, ?_⟩
    · simp only [evaluateLeaf, Leaf.line?]
      split <;> rfl
    · simp only [evaluateLeaf, Leaf.rootLine?]
      split <;> rfl

theorem Options.block_eq (o : Options) (env : Env) (nested : Bool) (heading : Heading) :
    o.block env.substitute nested heading =
      { guarded := o.hoverGuard && (o.selector? nested heading).any Selector.hasHover
        heading := o.title env nested heading
        nested := heading.nests nested } := by
  cases heading <;> simp [Options.block, Options.selector?, Options.title, Heading.nests]

/-- A block is opened and closed around its children, guarded or not. -/
theorem Layout.lines_guarded_block (o : Options) (depth : Nat) (rule : Option (List Char)) (b : Block)
    (hb : b.guarded = (o.hoverGuard && rule.any Selector.hasHover)) (children rest : Layout) :
    (guarded o (.block rule b.heading children rest)).lines o depth =
      openLines o depth b ++ (guarded o children).lines o (b.depth depth + 1) ++ closeLines o depth b ++
        (guarded o rest).lines o depth := by
  rw [guarded_block, ← hb, openLines, closeLines, Block.depth]
  cases b.guarded <;> simp [Layout.lines]

/-- **Emission writes the layout**, guarded if the options ask for it, and collects the entries of the root block. -/
theorem Output.emit_layout (o : Options) : ∀ (f : Sheet) (depth : Nat) (nested : Bool)
    (lines rootVariables : List (List Char)) (inner : Scope) (outer : Scopes), ∃ scope : Scope,
      emit o depth nested f { lines := lines, rootVariables := rootVariables, scopes := inner :: outer } =
        .ok { lines := lines ++
                (Layout.guarded o (Sheet.layout o (atRoot depth nested) nested (.ofScopes inner outer) f)).lines o depth
              rootVariables := rootVariables ++ Sheet.rootLines o (atRoot depth nested) (.ofScopes inner outer) f
              scopes := scope :: outer }
  | .nil, depth, nested, lines, rootVariables, inner, outer =>
    ⟨inner, by simp [emit, Sheet.layout, Sheet.rootLines, Layout.lines]⟩
  | .leaf item rest, depth, nested, lines, rootVariables, inner, outer => by
    obtain ⟨hlines, hroot⟩ := evaluateLeaf_eq o depth nested (.ofScopes inner outer) item
    obtain ⟨scope, hrest⟩ := emit_layout o rest depth nested
      (lines ++ (evaluateLeaf o depth nested (.ofScopes inner outer) item).lines)
      (rootVariables ++ (evaluateLeaf o depth nested (.ofScopes inner outer) item).rootVariables)
      (scopeAfter o inner outer item) outer
    refine ⟨scope, ?_⟩
    rw [emit, emitLeaf_eq]
    simp only [extend]
    rw [hrest, ofScopes_scopeAfter, hlines, hroot, Sheet.layout, Sheet.rootLines]
    cases item.line? o (atRoot depth nested) (.ofScopes inner outer) <;> simp [Layout.lines]
  | .block heading children rest, depth, nested, lines, rootVariables, inner, outer => by
    generalize hb : o.block (Env.ofScopes inner outer).substitute nested heading = b
    have hblock : block o nested { lines := lines, rootVariables := rootVariables, scopes := inner :: outer } heading =
        b := by
      rw [block, Scopes.substitute_cons, hb]
    rw [Options.block_eq, Eq.comm] at hb
    have htitle : o.title (.ofScopes inner outer) nested heading = b.heading := by rw [hb]
    have hnests : heading.nests nested = b.nested := by rw [hb]
    rw [emit, hblock, Sheet.layout, Sheet.rootLines, htitle, hnests]
    split
    · obtain ⟨inside, hchildren⟩ := emit_layout o children (b.depth depth + 1) b.nested
        (lines ++ openLines o depth b) rootVariables [] (inner :: outer)
      have hinside : atRoot (b.depth depth + 1) b.nested = false := rfl
      rw [openBlock_eq, hchildren, Env.ofScopes_nil, hinside, Sheet.rootLines_false, List.append_nil]
      simp only
      rw [closeBlock_eq]
      obtain ⟨scope, hrest⟩ := emit_layout o rest depth nested _ _ inner outer
      refine ⟨scope, hrest.trans ?_⟩
      rw [Layout.lines_guarded_block o depth _ b (by rw [hb])]
      simp
    · obtain ⟨scope, hrest⟩ := emit_layout o rest depth nested
        (lines ++ [o.indentAt depth ++ b.heading ++ [';']]) rootVariables inner outer
      refine ⟨scope, hrest.trans ?_⟩
      simp [Layout.lines]

/-! ## With guards and without -/

/-- The layout says nothing of guards. -/
theorem Sheet.layout_hoverGuard (o : Options) (g : Bool) : ∀ (f : Sheet) (root nested : Bool) (env : Env),
    Sheet.layout { o with hoverGuard := g } root nested env f = Sheet.layout o root nested env f
  | .nil, _, _, _ => rfl
  | .leaf item rest, root, nested, env => by
    have ih := Sheet.layout_hoverGuard o g rest root nested (env.after o item)
    rw [Sheet.layout, Sheet.layout, ← ih]
    rfl
  | .block heading children rest, root, nested, env => by
    have ih := Sheet.layout_hoverGuard o g rest root nested env
    have ih' := Sheet.layout_hoverGuard o g children false (heading.nests nested) env.inside
    rw [Sheet.layout, Sheet.layout, ← ih, ← ih']
    cases heading <;> rfl

theorem Sheet.rootLines_hoverGuard (o : Options) (g root : Bool) : ∀ (f : Sheet) (env : Env),
    Sheet.rootLines { o with hoverGuard := g } root env f = Sheet.rootLines o root env f
  | .nil, _ => rfl
  | .leaf item rest, env => by
    have ih := Sheet.rootLines_hoverGuard o g root rest (env.after o item)
    rw [Sheet.rootLines, Sheet.rootLines, ← ih]
    rfl
  | .block _ _ rest, env => Sheet.rootLines_hoverGuard o g root rest env

theorem Layout.lines_hoverGuard (o : Options) (g : Bool) : ∀ (t : Layout) (depth : Nat),
    t.lines { o with hoverGuard := g } depth = t.lines o depth
  | .nil, _ => rfl
  | .line text rest, depth => by
    rw [Layout.lines, Layout.lines, Layout.lines_hoverGuard o g rest depth]
    rfl
  | .block rule heading children rest, depth => by
    rw [Layout.lines, Layout.lines, Layout.lines_hoverGuard o g rest depth,
      Layout.lines_hoverGuard o g children (depth + 1)]
    rfl

/-- **The output is made of blocks, and guarding puts one around each rule that asks for hovering.**  With and without
guards the same layout is written, once as it is and once guarded, and the root block is the same. -/
theorem Output.emit_blocks (o : Options) (f : Sheet) (depth : Nat) (nested : Bool)
    (lines rootVariables : List (List Char)) (inner : Scope) (outer : Scopes) :
    let t := Sheet.layout o (atRoot depth nested) nested (.ofScopes inner outer) f
    ∃ plain guarded : Output,
      emit { o with hoverGuard := false } depth nested f
        { lines := lines, rootVariables := rootVariables, scopes := inner :: outer } = .ok plain ∧
      emit { o with hoverGuard := true } depth nested f
        { lines := lines, rootVariables := rootVariables, scopes := inner :: outer } = .ok guarded ∧
      plain.lines = lines ++ t.lines o depth ∧ guarded.lines = lines ++ (t.guard o.guardHeading).lines o depth ∧
      guarded.rootVariables = plain.rootVariables := by
  obtain ⟨scope, hplain⟩ := emit_layout { o with hoverGuard := false } f depth nested lines rootVariables inner outer
  obtain ⟨scope', hguarded⟩ := emit_layout { o with hoverGuard := true } f depth nested lines rootVariables inner outer
  refine ⟨_, _, hplain, hguarded, ?_, ?_, ?_⟩
  · simp only [Layout.guarded, Sheet.layout_hoverGuard, Layout.lines_hoverGuard]
    rfl
  · simp only [Layout.guarded, ↓reduceIte, Sheet.layout_hoverGuard, Layout.lines_hoverGuard]
    rfl
  · simp only [Sheet.rootLines_hoverGuard]

end Offside
