import Offside.Proofs.Layout
import Offside.Proofs.Preorder

/-!
# What each line is written for

The lines of the output once more as a forest of blocks, this time each line and each block with
the statement it is written for, guards among them (`Draft`).  So one can say which statements
are written at all, and which blocks lie around a rule: as many guards as there are rules that ask
for hovering from that rule outwards (`Output.emit_guards`).
-/
namespace Offside

/-- What a written block is. -/
inductive Role
  /-- The block of a rule, with the selector as it is written. -/
  | rule (selector : List Char)
  | atRule
  /-- The media query around a rule that asks for hovering. -/
  | guard
deriving DecidableEq, Repr

namespace Role

def selector? : Role → Option (List Char)
  | rule selector => some selector
  | _ => none

def hovers (role : Role) : Bool := role.selector?.any Selector.hasHover

def isGuard : Role → Bool
  | guard => true
  | _ => false

end Role

/-- Lines and blocks as they are written; a guard is written for the rule it guards. -/
inductive Draft
  | nil
  | line (source : Statement) (text : List Char) (rest : Draft)
  | block (role : Role) (source : Heading) (title : List Char) (children rest : Draft)
deriving DecidableEq, Repr

namespace Draft

def lines (o : Options) : (depth : Nat) → Draft → List (List Char)
  | _, nil => []
  | depth, line _ text rest => (o.indentAt depth ++ text) :: rest.lines o depth
  | depth, block _ _ title children rest =>
    (o.indentAt depth ++ title ++ o.opening) ::
      (children.lines o (depth + 1) ++ o.closing depth :: rest.lines o depth)

/-- The statements that are written, in order, each with the number of headings around it. -/
def sources : (depth : Nat) → Draft → List (Nat × Statement)
  | _, nil => []
  | depth, line source _ rest => (depth, source) :: rest.sources depth
  | depth, block role source _ children rest =>
    if role.isGuard then children.sources depth ++ rest.sources depth
    else (depth, .heading source) :: (children.sources (depth + 1) ++ rest.sources depth)

/-- The selector of each rule that is written, with the blocks around it, innermost first. -/
def rules : (around : List Role) → Draft → List (List Char × List Role)
  | _, nil => []
  | around, line _ _ rest => rest.rules around
  | around, block role _ _ children rest =>
    role.selector?.toList.map (·, around) ++ (children.rules (role :: around) ++ rest.rules around)

end Draft

/-! ## The draft of a sheet -/

def Options.role (o : Options) (nested : Bool) : Heading → Role
  | .rule selector _ => .rule (Selector.normalise nested o.compact selector)
  | .atRule _ _ _ => .atRule

/-- A block, inside a guard if it needs one. -/
def Options.put (o : Options) (role : Role) (source : Heading) (title : List Char) (children rest : Draft) : Draft :=
  if o.hoverGuard && role.hovers then .block .guard source o.guardHeading (.block role source title children .nil) rest
  else .block role source title children rest

def Sheet.draft (o : Options) : (root nested : Bool) → Env → Sheet → Draft
  | _, _, _, .nil => .nil
  | root, nested, env, .leaf item rest =>
    match item.line? o root env with
    | some text => .line (.leaf item) text (Sheet.draft o root nested (env.after o item) rest)
    | none => Sheet.draft o root nested (env.after o item) rest
  | root, nested, env, .block heading children rest =>
    if Output.opens heading children then
      o.put (o.role nested heading) heading (o.title env nested heading)
        (Sheet.draft o false (heading.nests nested) env.inside children) (Sheet.draft o root nested env rest)
    else .line (.heading heading) (o.title env nested heading ++ [';']) (Sheet.draft o root nested env rest)
  | _, _, _, .foreign item _ => nomatch item

theorem Options.hovers_role (o : Options) (nested : Bool) (heading : Heading) :
    (o.role nested heading).hovers = (o.selector? nested heading).any Selector.hasHover := by
  cases heading <;> rfl

theorem Options.isGuard_role (o : Options) (nested : Bool) (heading : Heading) :
    (o.role nested heading).isGuard = false := by
  cases heading <;> rfl

/-- The draft is written as the layout is. -/
theorem Sheet.lines_draft (o : Options) : ∀ (f : Sheet) (root nested : Bool) (env : Env) (depth : Nat),
    (Sheet.draft o root nested env f).lines o depth =
      (Layout.guarded o (Sheet.layout o root nested env f)).lines o depth
  | .nil, _, _, _, _ => by simp [Sheet.draft, Sheet.layout, Draft.lines, Layout.lines]
  | .leaf item rest, root, nested, env, depth => by
    have ih := Sheet.lines_draft o rest root nested (env.after o item) depth
    rw [Sheet.draft, Sheet.layout]
    cases item.line? o root env with
    | none => exact ih
    | some text => rw [Layout.guarded_line, Draft.lines, Layout.lines, ih]
  | .block heading children rest, root, nested, env, depth => by
    have ih := Sheet.lines_draft o rest root nested env
    have ih' := Sheet.lines_draft o children false (heading.nests nested) env.inside
    rw [Sheet.draft, Sheet.layout]
    split
    · rw [Options.put, Layout.guarded_block, Options.hovers_role]
      split
      · simp only [Draft.lines, Layout.lines, ih, ih']
      · simp only [Draft.lines, Layout.lines, ih, ih']
    · rw [Layout.guarded_line, Draft.lines, Layout.lines, ih]

theorem Output.emit_draft (o : Options) (f : Sheet) (depth : Nat) (nested : Bool) (lines rootVariables : List (List Char))
    (inner : Scope) (outer : Scopes) : ∃ scope : Scope,
      emit o depth nested f { lines := lines, rootVariables := rootVariables, scopes := inner :: outer } =
        .ok { lines := lines ++ (Sheet.draft o (atRoot depth nested) nested (.ofScopes inner outer) f).lines o depth
              rootVariables := rootVariables ++ Sheet.rootLines o (atRoot depth nested) (.ofScopes inner outer) f
              scopes := scope :: outer } := by
  obtain ⟨scope, h⟩ := emit_layout o f depth nested lines rootVariables inner outer
  rw [← Sheet.lines_draft] at h
  exact ⟨scope, h⟩

/-! ## Which statements are written -/

/-- Whether a statement has lines of its own; `root` says that variables go to the root block. -/
def Statement.isWritten (o : Options) (root : Bool) : Statement → Bool
  | .leaf (.define _ _ constant _) => !constant && !root
  | .leaf (.declare _ _ _) => true
  | .leaf (.remark _) => !o.compact
  | .heading _ => true

theorem Leaf.isSome_line? (o : Options) (root : Bool) (env : Env) (item : Leaf) :
    (item.line? o root env).isSome = (Statement.leaf item).isWritten o root := by
  cases item with
  | declare property value comment => rfl
  | define name value constant comment => cases constant <;> cases root <;> rfl
  | remark comment =>
    simp only [Leaf.line?, Statement.isWritten]
    cases o.compact <;> rfl

theorem Options.sources_put (o : Options) (role : Role) (hrole : role.isGuard = false) (source : Heading)
    (title : List Char) (children rest : Draft) (depth : Nat) :
    (o.put role source title children rest).sources depth =
      (depth, .heading source) :: (children.sources (depth + 1) ++ rest.sources depth) := by
  have hguard : Role.guard.isGuard = true := rfl
  unfold Options.put
  split
  · simp [Draft.sources, hguard, hrole]
  · simp [Draft.sources, hrole]

/-- **All statements are written, in order, but the constants, the variables of the root block and, in compact output, the
remarks.** -/
theorem Sheet.sources_draft (o : Options) : ∀ (f : Sheet) (root nested : Bool) (env : Env) (depth : Nat),
    (Sheet.draft o root nested env f).sources depth =
      (f.preorderFrom depth).filter fun s => s.2.isWritten o (root && s.1 == depth)
  | .nil, _, _, _, _ => rfl
  | .leaf item rest, root, nested, env, depth => by
    have ih := Sheet.sources_draft o rest root nested (env.after o item) depth
    have hsome := Leaf.isSome_line? o root env item
    rw [Sheet.draft, Forest.preorderFrom, List.filter_cons]
    simp only [beq_self_eq_true, Bool.and_true]
    rw [← hsome]
    cases item.line? o root env with
    | none => simpa using ih
    | some text => simp [Draft.sources, ih]
  | .block heading children rest, root, nested, env, depth => by
    have ih := Sheet.sources_draft o rest root nested env depth
    have ih' := Sheet.sources_draft o children false (heading.nests nested) env.inside (depth + 1)
    -- below a heading nothing goes to the root block
    have hinside : (children.preorderFrom (depth + 1)).filter (fun s => s.2.isWritten o (root && s.1 == depth)) =
        (children.preorderFrom (depth + 1)).filter fun s => s.2.isWritten o (false && s.1 == depth + 1) := by
      refine List.filter_congr fun s hs => ?_
      have hle := Forest.le_of_mem_preorderFrom children (depth + 1) s hs
      have hne : (s.1 == depth) = false := beq_eq_false_iff_ne.2 (by omega)
      rw [hne, Bool.and_false, Bool.false_and]
    rw [Sheet.draft, Forest.preorderFrom, List.filter_cons_of_pos rfl, List.filter_append, hinside, ← ih, ← ih']
    split
    · rw [Options.sources_put _ _ (Options.isGuard_role o nested heading)]
    · rename_i hopens
      cases heading with
      | rule selector comment => exact absurd rfl hopens
      | atRule name params comment =>
        cases children with
        | nil => rfl
        | leaf item more => exact absurd rfl hopens
        | block heading inner more => exact absurd rfl hopens
        | foreign item more => exact item.elim

/-! ## The guards around a rule -/

/-- Among these blocks are as many guards as rules that ask for hovering. -/
def Balanced (around : List Role) : Prop := around.countP Role.isGuard = around.countP Role.hovers

/-- The blocks around a block that is put into `around`. -/
def Options.inside (o : Options) (role : Role) (around : List Role) : List Role :=
  if o.hoverGuard && role.hovers then .guard :: around else around

theorem Options.balanced_inside (o : Options) (hguard : o.hoverGuard = true) {role : Role} (hrole : role.isGuard = false)
    {around : List Role} (h : Balanced around) : Balanced (role :: o.inside role around) := by
  have hcount : Role.guard.isGuard = true ∧ Role.guard.hovers = false := ⟨rfl, rfl⟩
  unfold Balanced at h ⊢
  by_cases hh : role.hovers = true
  · simp [Options.inside, hguard, hh, hrole, hcount, h]
  · simp [Options.inside, hh, hrole, h]

theorem Options.mem_rules_put {o : Options} {role : Role} {source : Heading} {title : List Char} {children rest : Draft}
    {around : List Role} {r : List Char × List Role}
    (h : r ∈ (o.put role source title children rest).rules around) :
    (role = .rule r.1 ∧ r.2 = o.inside role around) ∨ r ∈ children.rules (role :: o.inside role around) ∨
      r ∈ rest.rules around := by
  have hself : ∀ inside, r ∈ role.selector?.toList.map (·, inside) → role = .rule r.1 ∧ r.2 = inside := by
    intro inside hr
    cases role with
    | rule selector =>
      rw [List.mem_singleton.1 hr]
      exact ⟨rfl, rfl⟩
    | atRule => cases hr
    | guard => cases hr
  unfold Options.put at h
  unfold Options.inside
  split at h
  · rename_i hg
    rw [if_pos hg]
    simp only [Draft.rules, List.append_nil, List.mem_append] at h
    rcases h with hr | (hr | hr) | hr
    · cases hr
    · exact Or.inl (hself _ hr)
    · exact Or.inr (Or.inl hr)
    · exact Or.inr (Or.inr hr)
  · rename_i hg
    rw [Draft.rules, List.mem_append, List.mem_append] at h
    rw [if_neg hg]
    exact h.imp_left (hself around)

/-- Around each rule are as many guards as there are rules that ask for hovering, itself among them. -/
theorem Sheet.guards_draft (o : Options) (hguard : o.hoverGuard = true) : ∀ (f : Sheet) (root nested : Bool) (env : Env)
    (around : List Role), Balanced around → ∀ r ∈ (Sheet.draft o root nested env f).rules around,
      r.2.countP Role.isGuard = (Role.rule r.1 :: r.2).countP Role.hovers
  | .nil, _, _, _, _, _, r, hr => by cases hr
  | .leaf item rest, root, nested, env, around, h, r, hr => by
    have ih := Sheet.guards_draft o hguard rest root nested (env.after o item) around h r
    rw [Sheet.draft] at hr
    split at hr
    · exact ih hr
    · exact ih hr
  | .block heading children rest, root, nested, env, around, h, r, hr => by
    have ih := Sheet.guards_draft o hguard rest root nested env around h r
    have hinside := o.balanced_inside hguard (o.isGuard_role nested heading) h
    rw [Sheet.draft] at hr
    split at hr
    · rcases Options.mem_rules_put hr with ⟨hrole, hr⟩ | hr | hr
      · -- the rule itself: it is no guard, so the guards are all around it
        rw [← hr, hrole] at hinside
        exact hinside
      · exact Sheet.guards_draft o hguard children false (heading.nests nested) env.inside _ hinside r hr
      · exact ih hr
    · exact ih hr

/-- **Guards do not look outwards.**  What is written are the lines of the draft, and the guards around a rule are as many as
the rules that ask for hovering from this one outwards: exactly one around a rule that does and lies in none that does,
and none around a rule that does not and lies in none that does. -/
theorem Output.emit_guards (o : Options) (hguard : o.hoverGuard = true) (f : Sheet) (depth : Nat) (nested : Bool)
    (lines rootVariables : List (List Char)) (inner : Scope) (outer : Scopes) :
    let t := Sheet.draft o (atRoot depth nested) nested (.ofScopes inner outer) f
    (∃ out : Output, emit o depth nested f { lines := lines, rootVariables := rootVariables, scopes := inner :: outer } =
        .ok out ∧ out.lines = lines ++ t.lines o depth) ∧
      ∀ r ∈ t.rules [], r.2.countP Role.isGuard = (Role.rule r.1 :: r.2).countP Role.hovers ∧
        ((∀ role ∈ r.2, role.hovers = false) → r.2.countP Role.isGuard = if Selector.hasHover r.1 then 1 else 0) := by
  obtain ⟨scope, hemit⟩ := emit_draft o f depth nested lines rootVariables inner outer
  refine ⟨⟨_, hemit, rfl⟩, fun r hr => ?_⟩
  have hcount := Sheet.guards_draft o hguard f _ _ _ [] rfl r hr
  refine ⟨hcount, fun hnone => ?_⟩
  have hzero : r.2.countP Role.hovers = 0 := List.countP_eq_zero.2 fun role hm => by simp [hnone role hm]
  rw [hcount, List.countP_cons, hzero, Nat.zero_add]
  rfl

/-- Two rules that ask for hovering with an at-rule between them, one of them by its alias, and one that does not. -/
theorem Output.emit_guards_chain :
    let o : Options := {}
    let f : Sheet :=
      .block (.rule "a:hover".toList none)
        (.block (.atRule "media".toList "print".toList none)
          (.block (.rule ":hocus".toList none) .nil (.block (.rule "b".toList none) .nil .nil)) .nil) .nil
    let t := Sheet.draft o true false (.ofScopes [] []) f
    o.hoverGuard = true ∧ (t.rules []).map (fun r => r.2.countP Role.isGuard) = [1, 2, 1] ∧
      (∃ out : Output, emit o 0 false f {} = .ok out ∧ out.lines = t.lines o 0) ∧
      ∀ r ∈ t.rules [], r.2.countP Role.isGuard = (Role.rule r.1 :: r.2).countP Role.hovers ∧
        ((∀ role ∈ r.2, role.hovers = false) → r.2.countP Role.isGuard = if Selector.hasHover r.1 then 1 else 0) :=
  ⟨rfl, by decide, emit_guards _ rfl _ 0 false [] [] [] []⟩

/-- A rule that asks for hovering inside another gets a guard of its own, inside the other's. -/
theorem Output.emit_guards_twice :
    let f : Sheet :=
      .block (.rule "a:hover".toList none)
        (.block (.rule "b:hover".toList none) (.leaf (.declare "c".toList "d".toList none) .nil) .nil) .nil
    ((emit {} 0 false f {}).toOption.map Output.lines =
      some ["@media (hover: hover) \x7b".toList, "  a:hover \x7b".toList, "    @media (hover: hover) \x7b".toList,
        "      & b:hover \x7b".toList, "        c: d;".toList, "      \x7d".toList, "    \x7d".toList, "  \x7d".toList,
        "\x7d".toList]) ∧
      ∃ r ∈ (Sheet.draft {} true false (.ofScopes [] []) f).rules [],
        Selector.hasHover r.1 = true ∧ r.2.countP Role.isGuard = 2 := by
  decide

end Offside
