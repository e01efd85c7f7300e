import Offside.Proofs.Layout
import Offside.Proofs.Selecting

/-!
# Compact output

Compact output is the formatted output without its blanks, and without its comments.  The two
are compared by what they show, that is by what is left of them without blanks: the layouts
of one sheet show the same whatever the options (`Sheet.shown_layout`), given that they
agree on guards, because they write the same values, headings and entries.  The constants
they hold need not be the same, they too only show the same (`Env.Alike`).
-/
namespace Offside

/-! ## The parts of a line -/

namespace Options

variable (o : Options)

theorem visible_indentAt (h : allBlank o.indent = true) (depth : Nat) : visible (o.indentAt depth) = [] := by
  unfold indentAt
  split
  · rfl
  · rw [visible_flatten, List.flatMap_eq_nil_iff]
    intro part hpart
    rw [List.eq_of_mem_replicate hpart, visible_eq_nil h]

@[simp] theorem visible_colon : visible o.colon = [':'] := by
  unfold colon
  split <;> rfl

@[simp] theorem visible_opening : visible o.opening = ['\x7b'] := by
  unfold opening
  split <;> rfl

@[simp] theorem visible_guardHeading : visible o.guardHeading = "@media(hover:hover)".toList := by
  unfold guardHeading
  split <;> decide

@[simp] theorem visible_value (full : List Char) : visible (o.value full) = visible full := by
  unfold value
  split
  · exact Squeeze.visible_value full
  · rfl

theorem visible_atHeading (replace : List Char → List Char) (name params : List Char) :
    visible (o.atHeading replace name params) =
      visible ('@' :: name) ++ if params.isEmpty then [] else visible (replace params) := by
  unfold atHeading
  split
  · rw [List.append_nil]
  · rw [← Squeeze.visible_params (replace params)]
    split
    · -- the blank in front of the parameters is left out if a bracket does its work
      split
      · rename_i h
        rw [h, visible_nil, List.append_nil]
      · rename_i h
        rw [h, visible_append]
      · rw [visible_append, visible_cons_of_blank (c := ' ') (by decide)]
    · rw [visible_append, visible_cons_of_blank (c := ' ') (by decide), Squeeze.visible_params]

end Options

/-! ## Environments -/

/-- Environments whose constants show the same. -/
structure Env.Alike (env env' : Env) : Prop where
  here : ShowAlike env.here env'.here
  around : ShowAlike env.around env'.around

namespace Env.Alike

variable {env env' : Env}

theorem refl (env : Env) : Alike env env := ⟨fun _ => rfl, fun _ => rfl⟩

theorem get? (h : Alike env env') : ShowAlike env.get? env'.get? := by
  intro name
  rw [Env.get?, Env.get?, Option.map_or, Option.map_or, h.here name, h.around name]

theorem substitute (h : Alike env env') (cs : List Char) : visible (env.substitute cs) = visible (env'.substitute cs) :=
  visible_substitute h.get? cs

theorem define (h : Alike env env') (name : List Char) {value value' : List Char}
    (hv : visible value = visible value') : Alike (env.define name value) (env'.define name value') := by
  refine ⟨?_, h.around⟩
  intro n
  simp only [Env.define]
  split
  · rw [Option.map_or, Option.map_or, h.here n, Option.map_some, Option.map_some, hv]
  · exact h.here n

theorem inside (h : Alike env env') : Alike env.inside env'.inside := ⟨fun _ => rfl, h.get?⟩

theorem after (h : Alike env env') (o o' : Options) (item : Leaf) : Alike (env.after o item) (env'.after o' item) := by
  unfold Env.after
  split
  · exact h.define _ (by rw [Options.visible_value, Options.visible_value, h.substitute])
  · exact h

end Env.Alike

/-! ## Statements without comments -/

/-- Nothing in the statement is left out of compact output: there is no comment, and no comma at the end of a selector. -/
def Statement.plain : Statement → Bool
  | .leaf (.define _ _ _ comment) => comment.isNone
  | .leaf (.declare _ _ comment) => comment.isNone
  | .leaf (.remark _) => false
  | .heading (.rule selector comment) => comment.isNone && (trim selector).getLast? != some ','
  | .heading (.atRule _ _ comment) => comment.isNone

section

variable {env env' : Env} (henv : env.Alike env') (o o' : Options)

include henv

theorem Options.visible_entry (name value : List Char) :
    visible (o.entry env name value none) = visible (o'.entry env' name value none) := by
  simp only [Options.entry, Options.withComment, visible_append, Options.visible_colon, Options.visible_value,
    henv.substitute value]

theorem Leaf.visible_line? (root : Bool) {item : Leaf} (h : (Statement.leaf item).plain = true) :
    (item.line? o root env).map visible = (item.line? o' root env').map visible := by
  cases item with
  | define name value constant comment =>
    cases Option.isNone_iff_eq_none.1 h
    cases constant <;> cases root <;> simp [Leaf.line?, Options.visible_entry henv o o']
  | declare property value comment =>
    cases Option.isNone_iff_eq_none.1 h
    simp [Leaf.line?, Options.visible_entry henv o o']
  | remark comment => cases h

theorem Leaf.visible_rootLine? (root : Bool) {item : Leaf} (h : (Statement.leaf item).plain = true) :
    (item.rootLine? o root env).map visible = (item.rootLine? o' root env').map visible := by
  cases item with
  | define name value constant comment =>
    cases Option.isNone_iff_eq_none.1 h
    cases constant <;> cases root <;> simp [Leaf.rootLine?, Options.visible_entry henv o o']
  | declare property value comment => rfl
  | remark comment => rfl

theorem Options.visible_title (nested : Bool) {heading : Heading} (h : (Statement.heading heading).plain = true) :
    visible (o.title env nested heading) = visible (o'.title env' nested heading) := by
  cases heading with
  | rule selector comment =>
    rw [Statement.plain, Bool.and_eq_true, bne_iff_ne] at h
    cases Option.isNone_iff_eq_none.1 h.1
    simp only [Options.title, Options.withComment]
    exact Selector.visible_normalise h.2 nested o.compact o'.compact
  | atRule name params comment =>
    cases Option.isNone_iff_eq_none.1 h
    simp only [Options.title, Options.withComment, Options.visible_atHeading, henv.substitute params]

omit henv

theorem Options.selector?_hasHover (nested : Bool) {heading : Heading} (h : (Statement.heading heading).plain = true) :
    (o.selector? nested heading).any Selector.hasHover = (o'.selector? nested heading).any Selector.hasHover := by
  cases heading with
  | rule selector comment =>
    rw [Statement.plain, Bool.and_eq_true, bne_iff_ne] at h
    simp only [Options.selector?, Option.any_some]
    exact Selector.hasHover_normalise h.2 nested o.compact o'.compact
  | atRule name params comment => rfl

end

/-! ## Layouts -/

/-- What a layout shows. -/
def Layout.shown : Layout → List Char
  | nil => []
  | line text rest => visible text ++ rest.shown
  | block _ heading children rest => visible heading ++ ['\x7b'] ++ children.shown ++ ['\x7d'] ++ rest.shown

/-- The lines show what the layout shows: indentation is blank. -/
theorem Layout.shown_eq (o : Options) (h : allBlank o.indent = true) : ∀ (t : Layout) (depth : Nat),
    (t.lines o depth).flatMap visible = t.shown
  | nil, _ => rfl
  | line text rest, depth => by
    rw [lines, List.flatMap_cons, visible_append, o.visible_indentAt h, List.nil_append, shown_eq o h rest depth, shown]
  | block rule heading children rest, depth => by
    have hclosing : visible (o.closing depth) = ['\x7d'] := by
      rw [Options.closing, visible_append, o.visible_indentAt h]
      decide
    rw [lines, List.flatMap_cons, List.flatMap_append, List.flatMap_cons, shown_eq o h children (depth + 1),
      shown_eq o h rest depth, hclosing, visible_append, visible_append, o.visible_indentAt h, o.visible_opening, shown]
    simp

theorem Layout.shown_guarded_block (o : Options) (rule : Option (List Char)) (heading : List Char)
    (children rest : Layout) :
    (guarded o (block rule heading children rest)).shown =
      (if o.hoverGuard && rule.any Selector.hasHover then
        "@media(hover:hover)".toList ++ ['\x7b'] ++
          (visible heading ++ ['\x7b'] ++ (guarded o children).shown ++ ['\x7d']) ++ ['\x7d']
      else visible heading ++ ['\x7b'] ++ (guarded o children).shown ++ ['\x7d']) ++ (guarded o rest).shown := by
  rw [guarded_block]
  split
  · simp only [shown, o.visible_guardHeading, List.append_nil]
  · rfl

theorem Sheet.shown_layout_leaf (o : Options) (root nested : Bool) (env : Env) (item : Leaf) (rest : Sheet) :
    (Layout.guarded o (Sheet.layout o root nested env (.leaf item rest))).shown =
      ((item.line? o root env).map visible).getD [] ++
        (Layout.guarded o (Sheet.layout o root nested (env.after o item) rest)).shown := by
  rw [Sheet.layout]
  cases item.line? o root env with
  | none => rfl
  | some text => rw [Layout.guarded_line, Layout.shown, Option.map_some, Option.getD_some]

/-- **Whatever the options, a sheet shows the same**, if they agree on guards. -/
theorem Sheet.shown_layout (o o' : Options) (hguard : o.hoverGuard = o'.hoverGuard) :
    ∀ (f : Sheet) (k : Nat), (∀ s ∈ f.preorderFrom k, s.2.plain = true) → ∀ (root nested : Bool) (env env' : Env),
      env.Alike env' →
        (Layout.guarded o (Sheet.layout o root nested env f)).shown =
          (Layout.guarded o' (Sheet.layout o' root nested env' f)).shown
  | .nil, _, _, _, _, _, _, _ => by simp [Sheet.layout]
  | .leaf item rest, k, hf, root, nested, env, env', henv => by
    rw [Forest.preorderFrom, List.forall_mem_cons] at hf
    rw [Sheet.shown_layout_leaf, Sheet.shown_layout_leaf, Leaf.visible_line? henv o o' root hf.1,
      Sheet.shown_layout o o' hguard rest k hf.2 root nested _ _ (henv.after o o' item)]
  | .block heading children rest, k, hf, root, nested, env, env', henv => by
    rw [Forest.preorderFrom, List.forall_mem_cons, List.forall_mem_append] at hf
    obtain ⟨hheading, hchildren, hrest⟩ := hf
    have ih := Sheet.shown_layout o o' hguard rest k hrest root nested env env' henv
    have ih' := Sheet.shown_layout o o' hguard children (k + 1) hchildren false (heading.nests nested) _ _ henv.inside
    have htitle := Options.visible_title henv o o' nested hheading
    rw [Sheet.layout, Sheet.layout]
    split
    · rw [Layout.shown_guarded_block, Layout.shown_guarded_block, ih, ih', htitle, hguard,
        Options.selector?_hasHover o o' nested hheading]
    · rw [Layout.guarded_line, Layout.guarded_line, Layout.shown, Layout.shown, visible_append, visible_append, ih, htitle]

theorem Sheet.visible_rootLines (o o' : Options) (root : Bool) : ∀ (f : Sheet) (k : Nat),
    (∀ s ∈ f.preorderFrom k, s.2.plain = true) → ∀ env env' : Env, env.Alike env' →
      (Sheet.rootLines o root env f).map visible = (Sheet.rootLines o' root env' f).map visible
  | .nil, _, _, _, _, _ => rfl
  | .leaf item rest, k, hf, env, env', henv => by
    rw [Forest.preorderFrom, List.forall_mem_cons] at hf
    rw [Sheet.rootLines, Sheet.rootLines, List.map_append, List.map_append, ← Option.toList_map, ← Option.toList_map,
      Leaf.visible_rootLine? henv o o' root hf.1,
      Sheet.visible_rootLines o o' root rest k hf.2 _ _ (henv.after o o' item)]
  | .block heading children rest, k, hf, env, env', henv => by
    rw [Forest.preorderFrom, List.forall_mem_cons, List.forall_mem_append] at hf
    exact Sheet.visible_rootLines o o' root rest k hf.2.2 env env' henv

/-! ## The finished text -/

namespace Output

/-- What the root block shows, given what its entries show. -/
def rootShown (o : Options) (entries : List (List Char)) : List Char :=
  if entries.isEmpty then [] else visible o.rootSelector ++ ['\x7b'] ++ entries.flatten ++ ['\x7d']

theorem visible_rootBlock (o : Options) (h : allBlank o.indent = true) (out : Output) :
    (out.rootBlock o).flatMap visible = rootShown o (out.rootVariables.map visible) := by
  have hopen : visible ['\x7b'] = ['\x7b'] := by decide
  have hclose : visible ['\x7d'] = ['\x7d'] := by decide
  have hentries : (out.rootVariables.map (o.indent ++ ·)).flatMap visible = (out.rootVariables.map visible).flatten := by
    rw [List.flatMap_map, List.flatMap_def]
    congr 1
    exact List.map_congr_left fun line _ => by rw [visible_append, visible_eq_nil h, List.nil_append]
  unfold rootBlock rootShown
  rw [List.isEmpty_map]
  split
  · rfl
  · split
    · rw [List.flatMap_singleton, visible_append, visible_append, visible_append, visible_flatten, hopen, hclose,
        List.flatMap_def]
    · have hgap : (if out.lines.isEmpty then [] else [[]]).flatMap visible = [] := by split <;> rfl
      simp only [List.flatMap_append, List.flatMap_singleton, hentries, hgap, visible_append, hclose, List.append_nil]
      rfl

theorem visible_render (o : Options) (h : allBlank o.indent = true) (out : Output) :
    visible (out.render o) = rootShown o (out.rootVariables.map visible) ++ out.lines.flatMap visible := by
  have hbreak : allBlank ['\n'] = true := by decide
  rw [← visible_rootBlock o h, ← List.flatMap_append, render]
  split
  · rw [visible_flatten]
  · rw [visible_append, visible_eq_nil hbreak, List.append_nil, visible_intercalate_blank hbreak]

/-- What is written shows the root block and the layout. -/
theorem generate_shown (o : Options) (h : allBlank o.indent = true) (f : Sheet) :
    ∃ text, generate o f = .ok text ∧
      visible text = rootShown o ((Sheet.rootLines o true (.ofScopes [] []) f).map visible) ++
        (Layout.guarded o (Sheet.layout o true false (.ofScopes [] []) f)).shown := by
  obtain ⟨scope, hemit⟩ := emit_layout o f 0 false [] [] [] []
  refine ⟨_, by rw [generate, hemit]; rfl, ?_⟩
  rw [visible_render o h, List.nil_append, List.nil_append, Layout.shown_eq o h]
  rfl

/-- **Compact output is formatted output without its blanks.**  Both modes write every sheet, and if nothing in it is
a comment or a selector with a comma at its end, then what they write shows the same. -/
theorem generate_compact (o : Options) (f : Sheet) (hindent : allBlank o.indent = true)
    (hf : ∀ s ∈ f.preorder, s.2.plain = true) :
    ∃ small full, generate { o with compact := true } f = .ok small ∧
      generate { o with compact := false } f = .ok full ∧ visible small = visible full := by
  obtain ⟨small, hsmall, hsmallShown⟩ := generate_shown { o with compact := true } hindent f
  obtain ⟨full, hfull, hfullShown⟩ := generate_shown { o with compact := false } hindent f
  have hroot := Sheet.visible_rootLines { o with compact := true } { o with compact := false } true f 0 hf _ _
    (Env.Alike.refl (.ofScopes [] []))
  have hlayout := Sheet.shown_layout { o with compact := true } { o with compact := false } rfl f 0 hf true false _ _
    (Env.Alike.refl (.ofScopes [] []))
  refine ⟨small, full, hsmall, hfull, ?_⟩
  rw [hsmallShown, hfullShown, hroot, hlayout]
  rfl

/-- A constant that both modes hold differently, a variable of the root block, and a guarded rule in a list. -/
theorem generate_compact_hover :
    let o : Options := { indent := ['\t'] }
    let inner : Sheet := .block (.rule ":hocus, & > b".toList none) (.leaf (.declare "x".toList "$pad".toList none) .nil) .nil
    let f : Sheet :=
      .leaf (.define "pad".toList "max( 1px,  2px )".toList true none)
        (.leaf (.define "gap".toList "$pad $pad".toList false none)
          (.block (.rule "a , b:hover".toList none)
            (.block (.atRule "media".toList "( width > $pad )".toList none) inner .nil) .nil))
    allBlank o.indent = true ∧ (∀ s ∈ f.preorder, s.2.plain = true) ∧
      ∃ small full, generate { o with compact := true } f = .ok small ∧
        generate { o with compact := false } f = .ok full ∧ visible small = visible full :=
  ⟨by decide, by decide, generate_compact _ _ (by decide) (by decide)⟩

end Output

end Offside
