import Offside.Text.Search
import Offside.Text.CharClass

/-!
# Constants in scope

Every block opens a scope, and within one scope the first definition of a name
stands.  A reference `$name` means the innermost constant of that name, or else
the custom property `--name`.
-/
namespace Offside

abbrev Scope := List (List Char × List Char)

namespace Scope

def get? (scope : Scope) (name : List Char) : Option (List Char) := scope.lookup name

/-- A name that is already there keeps its value. -/
def define (scope : Scope) (name value : List Char) : Scope :=
  match scope.get? name with
  | some _ => scope
  | none => scope ++ [(name, value)]

end Scope

/-! ## References -/

def resolve (get? : List Char → Option (List Char)) (name : List Char) : List Char :=
  (get? name).getD ("var(--".toList ++ name ++ [')'])

def referenceAt (get? : List Char → Option (List Char)) : List Char → Option (Found Char)
  | '$' :: cs =>
    match cs.takeWhile isNameChar with
    | [] => none
    | name => some { put := resolve get? name, more := name.length }
  | _ => none

def substitute (get? : List Char → Option (List Char)) (cs : List Char) : List Char :=
  replaceAll (referenceAt get?) cs

/-- The scopes around a point, innermost first. -/
abbrev Scopes := List Scope

namespace Scopes

def get? (scopes : Scopes) (name : List Char) : Option (List Char) :=
  scopes.findSome? (·.get? name)

def substitute (scopes : Scopes) (cs : List Char) : List Char := Offside.substitute scopes.get? cs

end Scopes

end Offside
