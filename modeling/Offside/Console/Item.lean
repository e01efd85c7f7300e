import Offside.Journal

/-!
# What the console shows

A run hands the console items: lines of markup, log lines, panels and tables.  How
they are laid out on a screen is not decided here.
-/
namespace Offside.Console

structure Excerpt where
  source : List Char
  first : Int
  last : Int
  marked : Int
deriving DecidableEq, Repr

inductive Cell
  | markup (text : String)
  | excerpt (excerpt : Excerpt)
deriving DecidableEq, Repr

structure Table where
  title : Option String := none
  headers : List String
  rows : List (List Cell)
deriving DecidableEq, Repr

inductive Body
  | markup (text : String)
  | table (table : Table)
deriving DecidableEq, Repr

structure Panel where
  body : Body
  title : Option String := none
  /-- The colour of the border. -/
  border : String
  /-- Whether the panel is only as wide as what it holds. -/
  fit : Bool := false
deriving DecidableEq, Repr

inductive Item
  | markup (text : String)
  | log (note : Note)
  | panel (panel : Panel)
  | table (table : Table)
deriving DecidableEq, Repr

end Offside.Console
