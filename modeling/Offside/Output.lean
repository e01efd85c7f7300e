import Offside.Forest
import Offside.Scope
import Offside.Selector
import Offside.Text.Squeeze

/-!
# Emitting CSS

A forest is written depth first.  Three things are carried along: the lines
written so far, the custom properties of the root block, which are collected
apart because they come before everything else, and the scopes of constants.

Emission stops at an item that is no statement, and at a constant for which no
scope is open; what was written up to there is part of the answer.
-/
namespace Offside

structure Options where
  /-- One level of indentation. -/
  indent : List Char := [' ', ' ']
  /-- The selector of the block that holds the top-level variables. -/
  rootSelector : List Char := ":root".toList
  /-- Leave out comments and needless blanks. -/
  compact : Bool := false
  /-- Put rules that ask for hovering under a media query for it. -/
  hoverGuard : Bool := true
deriving DecidableEq, Repr

namespace Options

def indentAt (o : Options) (depth : Nat) : List Char :=
  if o.compact then [] else (List.replicate depth o.indent).flatten

def colon (o : Options) : List Char := if o.compact then [':'] else [':', ' ']

def opening (o : Options) : List Char := if o.compact then ['\x7b'] else [' ', '\x7b']

def closing (o : Options) (depth : Nat) : List Char := o.indentAt depth ++ ['\x7d']

def guardHeading (o : Options) : List Char :=
  if o.compact then "@media(hover:hover)".toList else "@media (hover: hover)".toList

def withComment (o : Options) (line : List Char) : Option Comment → List Char
  | some c => if o.compact then line else line ++ [' '] ++ c.render
  | none => line

/-- A value as it is written, `full` being the value with its references replaced: squeezed in compact output. -/
def value (o : Options) (full : List Char) : List Char := if o.compact then Squeeze.value full else full

def atHeading (o : Options) (replace : List Char → List Char) (name params : List Char) : List Char :=
  if params.isEmpty then '@' :: name
  else if o.compact then
    match Squeeze.params (replace params) with
    | [] => '@' :: name
    | '(' :: rest => '@' :: name ++ '(' :: rest
    | squeezed => '@' :: name ++ ' ' :: squeezed
  else '@' :: name ++ ' ' :: replace params

end Options

structure Block where
  /-- The guard lies outside, at the block's own depth, and moves the block one level in. -/
  guarded : Bool
  /-- The heading with its comment, without indentation and brace. -/
  heading : List Char
  /-- Whether the children are inside a rule. -/
  nested : Bool
deriving DecidableEq, Repr

namespace Block

def depth (b : Block) (depth : Nat) : Nat := if b.guarded then depth + 1 else depth

end Block

def Options.block (o : Options) (replace : List Char → List Char) (nested : Bool) : Heading → Block
  | .rule selector comment =>
    let selector := Selector.normalise nested o.compact selector
    { guarded := o.hoverGuard && Selector.hasHover selector
      heading := o.withComment selector comment
      nested := true }
  | .atRule name params comment =>
    { guarded := false
      heading := o.withComment (o.atHeading replace name params) comment
      nested := nested }

structure Output where
  lines : List (List Char) := []
  rootVariables : List (List Char) := []
  scopes : Scopes := [[]]
deriving DecidableEq, Repr

inductive Stop (ε : Type)
  /-- A constant is defined where no scope is open. -/
  | noScope
  /-- The item is no statement. -/
  | unknown (item : ε)
deriving DecidableEq, Repr

namespace Output

variable {ε : Type}

def write (out : Output) (line : List Char) : Output := { out with lines := out.lines ++ [line] }

def openScope (out : Output) : Output := { out with scopes := [] :: out.scopes }

def closeScope (out : Output) : Output := { out with scopes := out.scopes.tail }

/-- Defines a constant in the innermost scope, if there is one. -/
def define? (out : Output) (name value : List Char) : Option Output :=
  match out.scopes with
  | [] => none
  | inner :: outer => some { out with scopes := inner.define name value :: outer }

/-- A value as it is written. -/
def value (o : Options) (out : Output) (raw : List Char) : List Char := o.value (out.scopes.substitute raw)

/-! ## Leaves -/

/-- A top-level variable goes to the root block, any other to the lines. -/
def emitVariable (o : Options) (depth : Nat) (nested : Bool) (line : List Char) (out : Output) : Output :=
  if depth = 0 && !nested then { out with rootVariables := out.rootVariables ++ [line] }
  else out.write (o.indentAt depth ++ line)

def emitLeaf (o : Options) (depth : Nat) (nested : Bool) (leaf : Leaf) (out : Output) :
    Except (Stop ε × Output) Output :=
  match leaf with
  | .declare property value comment =>
    .ok (out.write (o.withComment
      (o.indentAt depth ++ property ++ o.colon ++ out.value o value ++ [';']) comment))
  | .define name value true _ =>
    match out.define? name (out.value o value) with
    | some out => .ok out
    | none => .error (.noScope, out)
  | .define name value false comment =>
    .ok (out.emitVariable o depth nested
      (o.withComment ('-' :: '-' :: name ++ o.colon ++ out.value o value ++ [';']) comment))
  | .remark comment =>
    .ok (if o.compact then out else out.write (o.indentAt depth ++ comment.render))

/-! ## Blocks -/

def block (o : Options) (nested : Bool) (out : Output) (heading : Heading) : Block :=
  o.block out.scopes.substitute nested heading

/-- An at-rule without children is a statement of its own and opens no block. -/
def opens {ε : Type} : Heading → Forest ε → Bool
  | .rule _ _, _ => true
  | .atRule _ _ _, children => !children.isEmpty

def openBlock (o : Options) (depth : Nat) (b : Block) (out : Output) : Output :=
  let out := if b.guarded then out.write (o.indentAt depth ++ o.guardHeading ++ o.opening) else out
  (out.write (o.indentAt (b.depth depth) ++ b.heading ++ o.opening)).openScope

def closeBlock (o : Options) (depth : Nat) (b : Block) (out : Output) : Output :=
  let out := out.closeScope.write (o.closing (b.depth depth))
  if b.guarded then out.write (o.closing depth) else out

/-- Writes a forest at the given depth; `nested` says that it lies inside a rule. -/
def emit (o : Options) : (depth : Nat) → (nested : Bool) → Forest ε → Output →
    Except (Stop ε × Output) Output
  | _, _, .nil, out => .ok out
  | depth, nested, .leaf item rest, out =>
    match out.emitLeaf o depth nested item with
    | .error stop => .error stop
    | .ok out => emit o depth nested rest out
  | depth, nested, .block heading children rest, out =>
    let b := out.block o nested heading
    if opens heading children then
      match emit o (b.depth depth + 1) b.nested children (out.openBlock o depth b) with
      | .error stop => .error stop
      | .ok out => emit o depth nested rest (out.closeBlock o depth b)
    else emit o depth nested rest (out.write (o.indentAt depth ++ b.heading ++ [';']))
  | _, _, .foreign item _, out => .error (.unknown item, out)

/-! ## The finished text -/

/-- The lines of the root block; there is none without variables. -/
def rootBlock (o : Options) (out : Output) : List (List Char) :=
  if out.rootVariables.isEmpty then []
  else if o.compact then [o.rootSelector ++ ['\x7b'] ++ out.rootVariables.flatten ++ ['\x7d']]
  else
    [o.rootSelector ++ [' ', '\x7b']] ++ out.rootVariables.map (o.indent ++ ·) ++ [['\x7d']] ++
      (if out.lines.isEmpty then [] else [[]])

def render (o : Options) (out : Output) : List Char :=
  let chunks := out.rootBlock o ++ out.lines
  if o.compact then chunks.flatten else ['\n'].intercalate chunks ++ ['\n']

def generate (o : Options) (forest : Forest ε) : Except (Stop ε × Output) (List Char) :=
  (emit o 0 false forest {}).map (·.render o)

end Output

end Offside
