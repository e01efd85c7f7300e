import Offside.Config.Node

/-!
# Project files

The value of a project file: its tree, with every plain text given its meaning.  A key may
not come twice in a mapping, unless it comes from another mapping that is merged in: then
what the mapping says itself counts.
-/
namespace Offside.Config

/-! ## Scalars -/

def mergeWord : List Char := ['<', '<']

def defaultWord : List Char := ['=']

def truthWords : List (String × Bool) :=
  [("true", true), ("yes", true), ("y", true), ("on", true),
   ("false", false), ("no", false), ("n", false), ("off", false)]

def Scalar.ofTagged (tag : Tag) (text : List Char) : Except Flaw Scalar :=
  match tag with
  | .null => .ok .null
  | .text => .ok (.text text)
  | .bool =>
    match truthWords.lookup (String.ofList (text.map Char.toLower)) with
    | some b => .ok (.bool b)
    | none => .error .malformed
  | .int =>
    let text := ungroup text
    match int? text with
    | some n => n.map .int
    | none =>
      let (base, digits) := splitBase (Number.splitSign text).2
      .error (.notWhole base digits)
  | .float =>
    let text := ungroup text
    match float? text with
    | some x => x.map .float
    | none => .error (.notDecimal ((Number.splitSign text).2.map Char.toLower))
  | .list => .error .malformed
  | .map => .error .malformed

def Scalar.ofNode (tag : Option Tag) (text : List Char) (plain : Bool) : Except Flaw Scalar :=
  match tag with
  | some tag => Scalar.ofTagged tag text
  | none =>
    if !plain then .ok (.text text)
    else if text == mergeWord || text == defaultWord then .error .malformed
    else Scalar.ofPlain text

/-! ## Merging -/

def Node.isMerge : Node → Bool
  | .scalar none text plain => plain && text == mergeWord
  | _ => false

def Node.entries? : Node → Option (List (Node × Node))
  | .map _ entries => some entries
  | _ => none

/-- Mappings to be merged in, the last of them first. -/
def Node.sources? : Node → Option (List (List (Node × Node)))
  | .map _ entries => some [entries]
  | .list _ items => (items.mapM Node.entries?).map List.reverse
  | .scalar _ _ _ => none

def flatten : (fuel : Nat) → List (Node × Node) → Except Flaw (List (Node × Node) × List (Node × Node))
  | 0, _ => .error .malformed
  | _, [] => .ok ([], [])
  | fuel + 1, (key, value) :: rest => do
    let (merged, own) ← flatten fuel rest
    if key.isMerge then
      match value.sources? with
      | none => .error .malformed
      | some sources =>
        let parts ← sources.mapM (flatten fuel)
        let new := parts.flatMap fun p => p.1 ++ p.2
        if merged.isEmpty || new.isEmpty then return (new ++ merged, own) else .error .malformed
    else return (merged, (key, value) :: own)

/-! ## Values -/

def Scalar.ofItem : Value → Except Flaw Scalar
  | .scalar s => .ok s
  | .list _ => .error (.keyHolds "list")
  | .map _ => .error (.keyHolds "dict")

/-- A value that serves as a key: a scalar, or a list of scalars. -/
def Key.ofValue : Value → Except Flaw Key
  | .scalar s => .ok (.scalar s)
  | .list items => (items.mapM Scalar.ofItem).map .row
  | .map _ => .error .malformed

def Node.check : Node → Except Flaw Unit
  | .scalar tag text plain => (Scalar.ofNode tag text plain).map fun _ => ()
  | _ => .ok ()

def Node.isDefault : Node → Bool
  | .scalar none text plain => plain && text == defaultWord
  | _ => false

mutual

def Node.value : (fuel : Nat) → Node → Except Flaw Value
  | 0, _ => .error .malformed
  | _, .scalar tag text plain => (Scalar.ofNode tag text plain).map .scalar
  | fuel + 1, .list tag items =>
    if tag.all (· == .list) then (Node.values fuel items).map .list else .error .malformed
  | fuel + 1, .map tag entries =>
    if tag.all (· == .map) then do
      let (merged, own) ← flatten fuel entries
      let keyed ← Node.keyed fuel merged.isEmpty [] (merged ++ own)
      return .map (← Node.entries fuel keyed)
    else .error .malformed

def Node.values : (fuel : Nat) → List Node → Except Flaw (List Value)
  | 0, _ => .error .malformed
  | _, [] => .ok []
  | fuel + 1, node :: nodes => do
    let value ← node.value fuel
    return value :: (← Node.values fuel nodes)

/-- The keys of a mapping; unless some are merged in, none may come twice. -/
def Node.keyed : (fuel : Nat) → (once : Bool) → (seen : List Key) → List (Node × Node) →
    Except Flaw (List (Key × Node))
  | 0, _, _, _ => .error .malformed
  | _, _, _, [] => .ok []
  | fuel + 1, once, seen, (k, v) :: rest => do
    let found ← if k.isDefault then .ok (.scalar (.text defaultWord)) else k.value fuel
    if found.isMap then .error .malformed
    v.check
    let key ← Key.ofValue found
    if once && seen.any (·.same key) then .error .malformed
    else return (key, v) :: (← Node.keyed fuel once (key :: seen) rest)

/-- The entries of a mapping; of two values under one key the last counts. -/
def Node.entries : (fuel : Nat) → List (Key × Node) → Except Flaw Entries
  | 0, _ => .error .malformed
  | _, [] => .ok []
  | fuel + 1, (key, node) :: rest => do
    let value ← node.value fuel
    let more ← Node.entries fuel rest
    return (key, (more.find? fun e => e.1.same key).elim value Prod.snd) :: more.filter fun e => !e.1.same key

end

/-! ## Files -/

def isAllowed (c : Char) : Bool :=
  let n := c.toNat
  n == 0x09 || n == 0x0A || n == 0x0D || (0x20 ≤ n && n ≤ 0x7E) || n == 0x85 ||
    (0xA0 ≤ n && n ≤ 0xFFFD) || 0x10000 ≤ n

/-- The value of a project file; one without a document holds null. -/
def readDocument (cs : List Char) : Except Flaw Value :=
  if cs.all isAllowed then do
    match ← Node.parse? cs with
    | none => return .scalar .null
    | some node => node.value (8 * cs.length + 16)
  else .error .malformed

end Offside.Config
