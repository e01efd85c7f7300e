import Offside.Proofs.Provenance

/-!
# The root block

Variables at the top of a sheet are collected into one block in front of everything else.  What
it holds depends on the statements at the top alone: one entry for each variable among them that is
no constant, with the constants that stand before it (`Output.generate_rootBlock`).
-/
namespace Offside

/-! ## The statements at the top -/

/-- The trees of a sheet without what is below them. -/
def Forest.top : Sheet → List Statement
  | .nil => []
  | .leaf item rest => .leaf item :: top rest
  | .block heading _ rest => .heading heading :: top rest
  | .foreign item _ => nomatch item

namespace Statement

/-- The constants behind a statement at the top, given those before it. -/
def constantsAfter (o : Options) (scope : Scope) : Statement → Scope
  | .leaf (.define name value true _) => scope.define name (o.value (Scopes.substitute [scope] value))
  | _ => scope

/-- The entry of a statement at the top, given the constants before it. -/
def rootItem? (o : Options) (scope : Scope) : Statement → Option (List Char)
  | .leaf (.define name value false comment) =>
    some (o.withComment ('-' :: '-' :: name ++ o.colon ++ o.value (Scopes.substitute [scope] value) ++ [';']) comment)
  | _ => none

end Statement

/-- The constants that the statements define, one after the other. -/
def topConstants (o : Options) (before : List Statement) : Scope :=
  before.foldl (fun scope s => s.constantsAfter o scope) []

/-- The entries of the root block: those of the statements at the top, each with the constants that stand before it. -/
def Forest.rootEntries (o : Options) (f : Sheet) : List (List Char) :=
  f.top.zipIdx.filterMap fun s => s.1.rootItem? o (topConstants o (f.top.take s.2))

theorem topConstants_concat (o : Options) (before : List Statement) (s : Statement) :
    topConstants o (before ++ [s]) = s.constantsAfter o (topConstants o before) := by
  simp [topConstants]

theorem rootLine?_eq (o : Options) (scope : Scope) (item : Leaf) :
    item.rootLine? o true (.ofScopes scope []) = (Statement.leaf item).rootItem? o scope := by
  cases item with
  | define name value constant comment =>
    cases constant with
    | true => rfl
    | false => simp [Leaf.rootLine?, Statement.rootItem?, Options.entry, Scopes.substitute_cons]
  | declare property value comment => rfl
  | remark comment => rfl

theorem after_ofScopes (o : Options) (scope : Scope) (item : Leaf) :
    (Env.ofScopes scope []).after o item = .ofScopes ((Statement.leaf item).constantsAfter o scope) [] := by
  rw [← Output.ofScopes_scopeAfter]
  cases item with
  | define name value constant comment => cases constant <;> rfl
  | declare property value comment => rfl
  | remark comment => rfl

theorem Sheet.rootLines_eq (o : Options) : ∀ (f : Sheet) (before : List Statement),
    Sheet.rootLines o true (.ofScopes (topConstants o before) []) f =
      (f.top.zipIdx before.length).filterMap fun s => s.1.rootItem? o (topConstants o ((before ++ f.top).take s.2))
  | .nil, _ => rfl
  | .leaf item rest, before => by
    have ih := Sheet.rootLines_eq o rest (before ++ [.leaf item])
    rw [List.length_append, List.length_singleton, List.append_assoc, List.singleton_append, topConstants_concat] at ih
    rw [Sheet.rootLines, rootLine?_eq, after_ofScopes, ih, Forest.top, List.zipIdx_cons, List.filterMap_cons,
      List.take_left]
    cases (Statement.leaf item).rootItem? o (topConstants o before) <;> rfl
  | .block heading children rest, before => by
    have ih := Sheet.rootLines_eq o rest (before ++ [.heading heading])
    rw [List.length_append, List.length_singleton, List.append_assoc, List.singleton_append, topConstants_concat] at ih
    rw [Sheet.rootLines, Forest.top, List.zipIdx_cons, List.filterMap_cons]
    exact ih

theorem rootEntries_eq_nil_iff (o : Options) (f : Sheet) :
    f.rootEntries o = [] ↔ ¬∃ name value comment, Statement.leaf (.define name value false comment) ∈ f.top := by
  unfold Forest.rootEntries
  rw [List.filterMap_eq_nil_iff]
  constructor
  · rintro h ⟨name, value, comment, hm⟩
    obtain ⟨i, hi, he⟩ := List.getElem_of_mem hm
    have := h (f.top[i], i) (List.mem_zipIdx_iff_getElem?.2 (List.getElem?_eq_getElem hi))
    rw [he] at this
    cases this
  · intro h s hs
    have hm := List.mem_of_getElem? (List.mem_zipIdx_iff_getElem?.1 hs)
    unfold Statement.rootItem?
    split
    · rename_i name value comment he
      rw [he] at hm
      exact absurd ⟨name, value, comment, hm⟩ h
    · rfl

/-! ## The finished text -/

def Layout.ofLines : List (List Char) → Layout
  | [] => nil
  | text :: texts => line text (ofLines texts)

theorem Layout.lines_ofLines (o : Options) (depth : Nat) : ∀ texts : List (List Char),
    (Layout.ofLines texts).lines o depth = texts.map (o.indentAt depth ++ ·)
  | [] => rfl
  | text :: texts => by
    rw [Layout.ofLines, Layout.lines, List.map_cons, Layout.lines_ofLines o depth texts]

/-- The root block, if there is anything to put into it. -/
def Options.rootBlock? (o : Options) (entries : List (List Char)) : Option Layout :=
  if entries.isEmpty then none else some (.block none o.rootSelector (.ofLines entries) .nil)

/-- The lines as one text, those of the root block first; a blank line divides the two in formatted output. -/
def Options.text (o : Options) (root rest : List (List Char)) : List Char :=
  if o.compact then (root ++ rest).flatten
  else ['\n'].intercalate (root ++ (if root.isEmpty || rest.isEmpty then [] else [[]]) ++ rest) ++ ['\n']

theorem Output.render_eq_text (o : Options) (out : Output) :
    out.render o = o.text (((o.rootBlock? out.rootVariables).map (·.lines o 0)).getD []) out.lines := by
  unfold Output.render Output.rootBlock Options.rootBlock? Options.text
  by_cases he : out.rootVariables.isEmpty = true
  · simp [he]
  · by_cases hc : o.compact = true
    · simp [he, hc, Layout.lines, Layout.lines_ofLines, Options.indentAt, Options.opening, Options.closing]
    · simp [he, hc, Layout.lines, Layout.lines_ofLines, Options.indentAt, Options.opening, Options.closing]

/-- **The root block stands first and holds the variables of the top, and nothing else.**  There is one if and only if some
statement at the top is a variable and no constant.  Behind it each other statement has its lines, in order, but no
constant has any. -/
theorem Output.generate_rootBlock (o : Options) (f : Sheet) :
    let block? := o.rootBlock? (f.rootEntries o)
    let t := Sheet.draft o true false (.ofScopes [] []) f
    generate o f = .ok (o.text ((block?.map (·.lines o 0)).getD []) (t.lines o 0)) ∧
      (block?.isSome ↔ ∃ name value comment, Statement.leaf (.define name value false comment) ∈ f.top) ∧
      t.sources 0 = f.preorder.filter fun s => s.2.isWritten o (s.1 == 0) := by
  obtain ⟨scope, hemit⟩ := emit_draft o f 0 false [] [] [] []
  have hroot : Sheet.rootLines o true (.ofScopes [] []) f = f.rootEntries o := Sheet.rootLines_eq o f []
  refine ⟨?_, ?_, ?_⟩
  · rw [generate, hemit]
    simp only [Except.map, render_eq_text, List.nil_append]
    rw [← hroot]
    rfl
  · have hnil := rootEntries_eq_nil_iff o f
    by_cases he : f.rootEntries o = []
    · simp [Options.rootBlock?, he, hnil.1 he]
    · simpa [Options.rootBlock?, he] using not_not.1 (mt hnil.2 he)
  · simpa [Forest.preorder] using Sheet.sources_draft o f true false (.ofScopes [] []) 0

end Offside
