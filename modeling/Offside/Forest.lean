import Offside.Statement

/-!
# Forests of statements

A stylesheet is an ordered forest whose inner nodes are headings.  The type is
the first-child, next-sibling form, so one plain induction reaches every node,
and only a heading can have children.

A caller may put items of its own kind into a forest (`foreign`); a parsed
stylesheet has none, which the type `Sheet` says.
-/
namespace Offside

inductive Forest (ε : Type)
  | nil
  | leaf (item : Leaf) (rest : Forest ε)
  | block (heading : Heading) (children rest : Forest ε)
  | foreign (item : ε) (rest : Forest ε)
deriving DecidableEq, Repr, Inhabited

abbrev Sheet := Forest Empty

namespace Forest

variable {ε : Type}

def isEmpty : Forest ε → Bool
  | nil => true
  | _ => false

def size : Forest ε → Nat
  | nil => 0
  | leaf _ rest => rest.size + 1
  | block _ _ rest => rest.size + 1
  | foreign _ rest => rest.size + 1

def single : Statement → Forest ε
  | .leaf item => leaf item nil
  | .heading heading => block heading nil nil

/-- Adds a statement as the last one at the given depth: below the last heading, `depth`
levels down from the top, or as deep as there are headings to own it. -/
def add : Forest ε → (depth : Nat) → Statement → Forest ε
  | nil, _, s => single s
  | leaf item rest, d, s => leaf item (rest.add d s)
  | foreign item rest, d, s => foreign item (rest.add d s)
  | block heading children nil, d + 1, s => block heading (children.add d s) nil
  | block heading children rest, d, s => block heading children (rest.add d s)

/-! ## The preorder view -/

/-- Every statement with its depth, parents before their children. -/
def preorderFrom : (depth : Nat) → Sheet → List (Nat × Statement)
  | _, nil => []
  | d, leaf item rest => (d, .leaf item) :: preorderFrom d rest
  | d, block heading children rest =>
    (d, .heading heading) :: (preorderFrom (d + 1) children ++ preorderFrom d rest)
  | _, foreign item _ => nomatch item

def preorder (f : Sheet) : List (Nat × Statement) := preorderFrom 0 f

end Forest

end Offside
