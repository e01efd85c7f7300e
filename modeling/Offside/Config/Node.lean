import Offside.Config.Token

/-!
# The tree of a project file

What the tokens of a project file build up: texts, lists and mappings as they are written,
before the plain texts are given a meaning.  A node may be named by an anchor, and an alias
stands for the last node that was named so.  Parsing goes down one unit of fuel for every
entry; the number of tokens is always enough.
-/
namespace Offside.Config

inductive Node
  | scalar (tag : Option Tag) (text : List Char) (plain : Bool)
  | list (tag : Option Tag) (items : List Node)
  | map (tag : Option Tag) (entries : List (Node × Node))
deriving Repr, Inhabited

def Node.empty : Node := .scalar none [] true

structure Parser where
  scanner : Scanner
  anchors : List (List Char × Node) := []

abbrev Parse := StateT Parser (Except Flaw)

namespace Parse

def fail {α : Type} : Parse α := throw .malformed

def peek : Parse Token := fun p => do
  let (t, s) ← p.scanner.peek
  return (t, { p with scanner := s })

def take : Parse Unit := modify fun p => { p with scanner := p.scanner.drop }

def accept (t : Token) : Parse Bool := do
  if (← peek) = t then
    take
    return true
  else return false

def named (name : List Char) : Parse Node := do
  match (← get).anchors.lookup name with
  | some node => return node
  | none => fail

def remember (name : Option (List Char)) (node : Node) : Parse Unit :=
  match name with
  | some name => modify fun p => { p with anchors := (name, node) :: p.anchors }
  | none => return ()

/-! ## What stands before a node -/

structure Properties where
  anchor : Option (List Char) := none
  /-- A declared kind, or the wish to leave it to the spelling. -/
  tag : Option (Option Tag) := none
deriving DecidableEq, Repr

def anchor : Parse (Option (List Char)) := do
  match ← peek with
  | .anchor name => take; return some name
  | _ => return none

def tag : Parse (Option (Option Tag)) := do
  match ← peek with
  | .tag kind => take; return some kind
  | _ => return none

def properties : Parse Properties := do
  match ← anchor with
  | some name => return { anchor := some name, tag := ← tag }
  | none =>
    match ← tag with
    | some kind => return { anchor := ← anchor, tag := some kind }
    | none => return {}

def Properties.kind (p : Properties) : Option Tag := p.tag.getD none

/-! ## Nodes -/

def endsEntry (t : Token) : Bool := t = .key || t = .value || t = .blockEnd

def endsItem (t : Token) : Bool := t = .item || t = .blockEnd

def endsListPart (t : Token) : Bool := t = .comma || t = .closeList

def endsMapPart (t : Token) : Bool := t = .comma || t = .closeMap

/-- Whether another entry follows in brackets.  Between two entries stands a comma, and one may
stand behind the last. -/
def follows (first : Bool) (close : Token) : Parse Bool := do
  if ← accept close then return false
  else if first then return true
  else if ← accept .comma then return !(← accept close)
  else fail

mutual

/-- A node.  `block` allows what indentation holds together, and `loose` a list that stands at the
indent of its key. -/
def node (block loose : Bool) : (fuel : Nat) → Parse Node
  | 0 => fail
  | fuel + 1 => do
    match ← peek with
    | .alias name => take; named name
    | _ =>
      let p ← properties
      let node ←
        match ← peek with
        | .scalar text plain => take; pure (.scalar p.kind text (plain || p.tag = some none))
        | .openList => take; .list p.kind <$> bracketItems true fuel
        | .openMap => take; .map p.kind <$> bracketEntries true fuel
        | t =>
          if t = .item && loose then .list p.kind <$> looseItems fuel
          else if t = .listStart && block then do take; .list p.kind <$> items fuel
          else if t = .mapStart && block then do take; .map p.kind <$> entries fuel
          else if p = {} then fail
          else pure (.scalar p.kind [] true)
      remember p.anchor node
      return node

def optional (absent : Token → Bool) (block loose : Bool) : (fuel : Nat) → Parse Node
  | 0 => fail
  | fuel + 1 => do if absent (← peek) then return .empty else node block loose fuel

def items : (fuel : Nat) → Parse (List Node)
  | 0 => fail
  | fuel + 1 => do
    if ← accept .item then
      let first ← optional endsItem true false fuel
      return first :: (← items fuel)
    else if ← accept .blockEnd then return []
    else fail

/-- The items of a list that has no end of its own. -/
def looseItems : (fuel : Nat) → Parse (List Node)
  | 0 => fail
  | fuel + 1 => do
    if ← accept .item then
      let first ← optional (fun t => t = .item || endsEntry t) true false fuel
      return first :: (← looseItems fuel)
    else return []

def valueOr (absent : Token → Bool) (block : Bool) : (fuel : Nat) → Parse Node
  | 0 => fail
  | fuel + 1 => do if ← accept .value then optional absent block block fuel else return .empty

def entries : (fuel : Nat) → Parse (List (Node × Node))
  | 0 => fail
  | fuel + 1 => do
    if ← accept .blockEnd then return []
    else
      let hasKey ← accept .key
      if !hasKey && (← peek) ≠ .value then fail
      else
        let key ← if hasKey then optional endsEntry true true fuel else pure .empty
        let value ← valueOr endsEntry true fuel
        return (key, value) :: (← entries fuel)

/-- The items of a list up to its bracket.  A single entry stands for a mapping. -/
def bracketItems (first : Bool) : (fuel : Nat) → Parse (List Node)
  | 0 => fail
  | fuel + 1 => do
    if ← follows first .closeList then
      let item ←
        if ← accept .key then do
          let key ← optional (fun t => t = .value || endsListPart t) false false fuel
          let value ← valueOr endsListPart false fuel
          pure (.map none [(key, value)])
        else node false false fuel
      return item :: (← bracketItems false fuel)
    else return []

/-- The entries of a mapping up to its brace.  A key may stand without a value, and a value without
a key. -/
def bracketEntries (first : Bool) : (fuel : Nat) → Parse (List (Node × Node))
  | 0 => fail
  | fuel + 1 => do
    if ← follows first .closeMap then
      let entry ←
        if ← accept .key then do
          let key ← optional (fun t => t = .value || endsMapPart t) false false fuel
          pure (key, ← valueOr endsMapPart false fuel)
        else if (← peek) = .value then pure (.empty, ← valueOr endsMapPart false fuel)
        else pure (← node false false fuel, .empty)
      return entry :: (← bracketEntries false fuel)
    else return []

end

/-! ## Documents -/

/-- Passes over directives; at most one says the version, which begins with one. -/
def directives (seen : Bool) : (fuel : Nat) → Parse Unit
  | 0 => fail
  | fuel + 1 => do
    match ← peek with
    | .directive none => take; directives seen fuel
    | .directive (some major) =>
      if seen || major ≠ 1 then fail
      else
        take
        directives true fuel
    | _ => return ()

def endsDocument (t : Token) : Bool :=
  match t with
  | .directive _ => true
  | .documentStart => true
  | .documentEnd => true
  | .fileEnd => true
  | _ => false

def document (fuel : Nat) : Parse (Option Node) := do
  let t ← peek
  if t = .fileEnd then return none
  else
    let explicit := endsDocument t && t ≠ .documentEnd
    if explicit then
      directives false fuel
      if !(← accept .documentStart) then fail
    let root ← if explicit && endsDocument (← peek) then pure .empty else node true false fuel
    let _ ← accept .documentEnd
    if (← peek) = .fileEnd then return some root else fail

end Parse

def Node.parse? (cs : List Char) : Except Flaw (Option Node) :=
  let fuel := 8 * cs.length + 16
  (Parse.document fuel).run' { scanner := .start cs }

end Offside.Config
