import Offside.Output
import Mathlib.Logic.Relation

/-!
# Emission step by step

Emission is one recursion, so what it holds on the way cannot be spoken of.  Here the same is done in steps: a point of
the walk (`Walk`) has what is left to write in the block at hand and the blocks around it that are still to be closed,
and a step writes one statement or closes one block.  The walk ends as emission does, wherever it is begun
(`Output.emit_ends`); so what holds at the start and is kept by every step holds all the way (`Walk.Reaches.preserves`).
-/
namespace Offside

/-- A block that is still to be closed, and what follows it. -/
structure Pending where
  depth : Nat
  nested : Bool
  block : Block
  rest : Sheet
deriving DecidableEq, Repr

/-- A point in the emission of a sheet. -/
structure Walk where
  depth : Nat
  nested : Bool
  /-- What is left to write in the block at hand. -/
  todo : Sheet
  /-- The blocks around, innermost first. -/
  around : List Pending
  out : Output
deriving DecidableEq, Repr

namespace Walk

/-- The next point, unless there is nothing left to write or emission stops here. -/
def next? (o : Options) (w : Walk) : Option Walk :=
  match w.todo with
  | .nil =>
    match w.around with
    | [] => none
    | p :: around =>
      some { depth := p.depth, nested := p.nested, todo := p.rest, around := around,
             out := w.out.closeBlock o p.depth p.block }
  | .leaf item rest =>
    match (w.out.emitLeaf o w.depth w.nested item : Except (Stop Empty × Output) Output) with
    | .ok out => some { w with todo := rest, out := out }
    | .error _ => none
  | .block heading children rest =>
    let b := w.out.block o w.nested heading
    if Output.opens heading children then
      some { depth := b.depth w.depth + 1, nested := b.nested, todo := children,
             around := { depth := w.depth, nested := w.nested, block := b, rest := rest } :: w.around,
             out := w.out.openBlock o w.depth b }
    else some { w with todo := rest, out := w.out.write (o.indentAt w.depth ++ b.heading ++ [';']) }
  | .foreign item _ => nomatch item

/-- The statement that is written next. -/
def statement? (w : Walk) : Option Statement :=
  match w.todo with
  | .leaf item _ => some (.leaf item)
  | .block heading _ _ => some (.heading heading)
  | _ => none

theorem statement?_cases {w : Walk} {s : Statement} (h : w.statement? = some s) :
    (∃ item rest, w.todo = .leaf item rest ∧ s = .leaf item) ∨
    ∃ heading children rest, w.todo = .block heading children rest ∧ s = .heading heading := by
  unfold statement? at h
  split at h
  · rename_i item rest htodo
    exact Or.inl ⟨item, rest, htodo, (Option.some.inj h).symm⟩
  · rename_i heading children rest htodo
    exact Or.inr ⟨heading, children, rest, htodo, (Option.some.inj h).symm⟩
  · cases h

/-- **What one step does**: it closes a block, or writes a leaf, or opens a block, or writes a heading that opens none. -/
theorem next?_cases {o : Options} {w next : Walk} (h : w.next? o = some next) :
    (∃ p around, w.todo = .nil ∧ w.around = p :: around ∧
      next = ⟨p.depth, p.nested, p.rest, around, w.out.closeBlock o p.depth p.block⟩) ∨
    (∃ item rest out, w.todo = .leaf item rest ∧
      (w.out.emitLeaf o w.depth w.nested item : Except (Stop Empty × Output) Output) = .ok out ∧
      next = { w with todo := rest, out := out }) ∨
    ∃ heading children rest, w.todo = .block heading children rest ∧
      ((Output.opens heading children = true ∧
          next = ⟨(w.out.block o w.nested heading).depth w.depth + 1, (w.out.block o w.nested heading).nested, children,
            ⟨w.depth, w.nested, w.out.block o w.nested heading, rest⟩ :: w.around,
            w.out.openBlock o w.depth (w.out.block o w.nested heading)⟩) ∨
        (Output.opens heading children = false ∧
          next = { w with todo := rest, out := w.out.write (o.indentAt w.depth ++ (w.out.block o w.nested heading).heading ++ [';']) })) := by
  unfold next? at h
  split at h
  · rename_i htodo
    split at h
    · cases h
    · rename_i p around haround
      exact Or.inl ⟨p, around, htodo, haround, (Option.some.inj h).symm⟩
  · rename_i item rest htodo
    split at h
    · rename_i out hout
      exact Or.inr (Or.inl ⟨item, rest, out, htodo, hout, (Option.some.inj h).symm⟩)
    · cases h
  · rename_i heading children rest htodo
    refine Or.inr (Or.inr ⟨heading, children, rest, htodo, ?_⟩)
    by_cases hopens : Output.opens heading children = true
    · rw [if_pos hopens] at h
      exact Or.inl ⟨hopens, (Option.some.inj h).symm⟩
    · rw [if_neg hopens] at h
      exact Or.inr ⟨Bool.eq_false_iff.2 hopens, (Option.some.inj h).symm⟩
  · rename_i item rest htodo
    exact item.elim

/-- The points that a walk comes to. -/
def Reaches (o : Options) : Walk → Walk → Prop := Relation.ReflTransGen fun v w => v.next? o = some w

theorem Reaches.preserves {o : Options} {P : Walk → Prop} (hstep : ∀ {v w}, P v → v.next? o = some w → P w) {v w : Walk}
    (h : Reaches o v w) (hv : P v) : P w := by
  induction h with
  | refl => exact hv
  | tail _ hnext ih => exact hstep ih hnext

/-! ## The end of a walk -/

/-- A walk ends with this answer: all that was left in the block at hand is written, or the walk stops before that. -/
def Ends (o : Options) (w : Walk) : Except (Stop Empty × Output) Output → Prop
  | .ok out => Reaches o w { w with todo := .nil, out := out }
  | .error (_, out) => ∃ v, Reaches o w v ∧ v.next? o = none ∧ v.todo ≠ .nil ∧ v.out = out

theorem Ends.of_reaches {o : Options} {w next : Walk} (hw : Reaches o w next)
    (hsame : { next with todo := w.todo, out := w.out } = w) {answer : Except (Stop Empty × Output) Output}
    (h : next.Ends o answer) : w.Ends o answer := by
  cases answer with
  | ok out =>
    have hend : { w with todo := .nil, out := out } = { next with todo := .nil, out := out } := by rw [← hsame]
    change Reaches o w { w with todo := .nil, out := out }
    rw [hend]
    exact hw.trans h
  | error stop =>
    obtain ⟨v, hv, hstuck⟩ := h
    exact ⟨v, hw.trans hv, hstuck⟩

end Walk

namespace Output

theorem emitLeaf_error {o : Options} {depth : Nat} {nested : Bool} {item : Leaf} {out : Output} {stop : Stop Empty × Output}
    (h : out.emitLeaf o depth nested item = .error stop) : stop.2 = out := by
  cases item with
  | declare property value comment => cases h
  | remark comment => cases h
  | define name value constant comment =>
    cases constant with
    | false => cases h
    | true =>
      simp only [emitLeaf] at h
      split at h
      · cases h
      · rw [← Except.error.inj h]

/-- **The walk ends as emission does**, whatever is around it. -/
theorem emit_ends (o : Options) : ∀ (f : Sheet) (depth : Nat) (nested : Bool) (around : List Pending) (out : Output),
    (Walk.mk depth nested f around out).Ends o (emit o depth nested f out)
  | .nil, depth, nested, around, out => by
    rw [emit]
    exact .refl
  | .leaf item rest, depth, nested, around, out => by
    rw [emit]
    cases hleaf : (out.emitLeaf o depth nested item : Except (Stop Empty × Output) Output) with
    | error stop =>
      refine ⟨_, .refl, ?_, ?_, (emitLeaf_error hleaf).symm⟩
      · simp [Walk.next?, hleaf]
      · simp
    | ok after =>
      have hnext : (Walk.mk depth nested (.leaf item rest) around out).next? o = some ⟨depth, nested, rest, around, after⟩ := by
        simp [Walk.next?, hleaf]
      exact .of_reaches (.single hnext) rfl (emit_ends o rest depth nested around after)
  | .block heading children rest, depth, nested, around, out => by
    rw [emit]
    generalize hb : out.block o nested heading = b
    by_cases hopens : opens heading children = true
    · have hnext : (Walk.mk depth nested (.block heading children rest) around out).next? o =
          some ⟨b.depth depth + 1, b.nested, children, ⟨depth, nested, b, rest⟩ :: around, out.openBlock o depth b⟩ := by
        simp [Walk.next?, hopens, hb]
      have hchildren := emit_ends o children (b.depth depth + 1) b.nested (⟨depth, nested, b, rest⟩ :: around)
        (out.openBlock o depth b)
      rw [if_pos hopens]
      cases hemit : emit o (b.depth depth + 1) b.nested children (out.openBlock o depth b) with
      | error stop =>
        rw [hemit] at hchildren
        obtain ⟨v, hv, hstuck⟩ := hchildren
        exact ⟨v, .head hnext hv, hstuck⟩
      | ok after =>
        rw [hemit] at hchildren
        -- the children are written, and the next step closes their block
        have hinside : Walk.Reaches o ⟨depth, nested, .block heading children rest, around, out⟩
            ⟨depth, nested, rest, around, after.closeBlock o depth b⟩ :=
          .trans (.single hnext) (.tail hchildren rfl)
        exact .of_reaches hinside rfl (emit_ends o rest depth nested around (after.closeBlock o depth b))
    · have hnext : (Walk.mk depth nested (.block heading children rest) around out).next? o =
          some ⟨depth, nested, rest, around, out.write (o.indentAt depth ++ b.heading ++ [';'])⟩ := by
        simp [Walk.next?, hopens, hb]
      rw [if_neg hopens]
      exact .of_reaches (.single hnext) rfl (emit_ends o rest depth nested around _)

end Output

end Offside
