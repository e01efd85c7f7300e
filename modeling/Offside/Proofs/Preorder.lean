import Mathlib.Data.List.Chain
import Offside.Forest

/-!
# The preorder view of a forest

A forest and its preorder view say the same: the view determines the forest
(`preorder_injective`), and adding a statement no deeper than the rightmost path
goes is appending to the view (`preorder_add`).  So a reader may build the tree in
place while everything about it is said of a list.
-/
namespace Offside
namespace Forest

/-! ## How deep the rightmost path goes -/

/-- The depth down to which a statement can be added: how many headings, each the last statement of its block, are
found one below the other from the top. -/
def reach : Sheet → Nat
  | nil => 0
  | leaf _ rest => rest.reach
  | block _ children nil => children.reach + 1
  | block _ _ rest => rest.reach
  | foreign item _ => nomatch item

theorem add_ne_nil (f : Sheet) (d : Nat) (s : Statement) : f.add d s ≠ nil := by
  fun_cases add f d s <;> simp [single]
  cases s <;> simp

theorem add_block {rest : Sheet} (h : rest ≠ nil) (heading : Heading) (children : Sheet) (d : Nat) (s : Statement) :
    (block heading children rest).add d s = block heading children (rest.add d s) := by
  cases rest with
  | nil => exact absurd rfl h
  | leaf _ _ => rfl
  | block _ _ _ => rfl
  | foreign item _ => exact item.elim

theorem reach_block {rest : Sheet} (h : rest ≠ nil) (heading : Heading) (children : Sheet) :
    (block heading children rest).reach = rest.reach := by
  cases rest with
  | nil => exact absurd rfl h
  | leaf _ _ => rfl
  | block _ _ _ => rfl
  | foreign item _ => exact item.elim

/-- **Adding a statement appends it to the view**, at the depth asked for. -/
theorem preorderFrom_add (s : Statement) : ∀ (f : Sheet) (k d : Nat), d ≤ f.reach →
    preorderFrom k (f.add d s) = preorderFrom k f ++ [(k + d, s)]
  | nil, k, d, h => by
    obtain rfl : d = 0 := Nat.le_zero.1 h
    cases s <;> rfl
  | leaf item rest, k, d, h => by
    rw [add, preorderFrom, preorderFrom, preorderFrom_add s rest k d h, List.cons_append]
  | block heading children rest, k, d, h => by
    by_cases hr : rest = nil
    · subst hr
      cases d with
      | zero => cases s <;> simp [add, single, preorderFrom]
      | succ d =>
        rw [add, preorderFrom, preorderFrom, preorderFrom_add s children (k + 1) d (Nat.le_of_succ_le_succ h)]
        simp [preorderFrom, Nat.add_assoc, Nat.add_comm 1 d]
    · rw [reach_block hr] at h
      rw [add_block hr, preorderFrom, preorderFrom, preorderFrom_add s rest k d h]
      simp

theorem preorder_add (f : Sheet) (d : Nat) (s : Statement) (h : d ≤ f.reach) :
    (f.add d s).preorder = f.preorder ++ [(d, s)] := by
  rw [preorder, preorderFrom_add s f 0 d h, Nat.zero_add, preorder]

/-- After a statement has been added, one may be added beside it, or below it if it is a heading. -/
theorem reach_add (s : Statement) : ∀ (f : Sheet) (d : Nat), d ≤ f.reach →
    (f.add d s).reach = if s.isHeading then d + 1 else d
  | nil, d, h => by
    obtain rfl : d = 0 := Nat.le_zero.1 h
    cases s <;> rfl
  | leaf item rest, d, h => by
    rw [add, reach, reach_add s rest d h]
  | block heading children rest, d, h => by
    by_cases hr : rest = nil
    · subst hr
      cases d with
      | zero => cases s <;> rfl
      | succ d =>
        rw [add, reach, reach_add s children d (Nat.le_of_succ_le_succ h)]
        split <;> rfl
    · rw [reach_block hr] at h
      rw [add_block hr, reach_block (add_ne_nil rest d s), reach_add s rest d h]

/-! ## The view determines the forest -/

/-- No statement of a view is less deep than the view's own depth. -/
theorem le_of_mem_preorderFrom : ∀ (f : Sheet) (k : Nat), ∀ p ∈ preorderFrom k f, k ≤ p.1
  | nil, _, p, hp => by cases hp
  | leaf item rest, k, p, hp => by
    rcases List.mem_cons.1 hp with rfl | hp
    · exact Nat.le_refl k
    · exact le_of_mem_preorderFrom rest k p hp
  | block heading children rest, k, p, hp => by
    rcases List.mem_cons.1 hp with rfl | hp
    · exact Nat.le_refl k
    · rcases List.mem_append.1 hp with hp | hp
      · exact Nat.le_of_succ_le (le_of_mem_preorderFrom children (k + 1) p hp)
      · exact le_of_mem_preorderFrom rest k p hp

/-- A view begins at its own depth, so what lies deeper ends where the next statement begins. -/
theorem takeWhile_preorderFrom : ∀ (f : Sheet) (k : Nat), (preorderFrom k f).takeWhile (fun p => k < p.1) = []
  | nil, _ => rfl
  | leaf item rest, k => by simp [preorderFrom]
  | block heading children rest, k => by simp [preorderFrom]

/-- The children of a heading are the deeper statements right behind it. -/
theorem takeWhile_children (children rest : Sheet) (k : Nat) :
    (preorderFrom (k + 1) children ++ preorderFrom k rest).takeWhile (fun p => k < p.1) =
      preorderFrom (k + 1) children := by
  rw [List.takeWhile_append_of_pos, takeWhile_preorderFrom, List.append_nil]
  intro p hp
  exact decide_eq_true (le_of_mem_preorderFrom children (k + 1) p hp)

theorem preorderFrom_injective : ∀ (f g : Sheet) (k : Nat), preorderFrom k f = preorderFrom k g → f = g
  | nil, nil, _, _ => rfl
  | nil, leaf _ _, _, h => by simp [preorderFrom] at h
  | nil, block _ _ _, _, h => by simp [preorderFrom] at h
  | leaf _ _, nil, _, h => by simp [preorderFrom] at h
  | leaf _ _, block _ _ _, _, h => by simp [preorderFrom] at h
  | block _ _ _, nil, _, h => by simp [preorderFrom] at h
  | block _ _ _, leaf _ _, _, h => by simp [preorderFrom] at h
  | leaf item rest, leaf item' rest', k, h => by
    simp only [preorderFrom, List.cons.injEq, Prod.mk.injEq, Statement.leaf.injEq, true_and] at h
    rw [h.1, preorderFrom_injective rest rest' k h.2]
  | block heading children rest, block heading' children' rest', k, h => by
    simp only [preorderFrom, List.cons.injEq, Prod.mk.injEq, Statement.heading.injEq, true_and] at h
    obtain ⟨rfl, h⟩ := h
    -- the two views are cut at the same place, the first statement that is not deeper
    have hc : preorderFrom (k + 1) children = preorderFrom (k + 1) children' := by
      rw [← takeWhile_children children rest k, h, takeWhile_children]
    rw [hc] at h
    have hr : preorderFrom k rest = preorderFrom k rest' := List.append_cancel_left h
    rw [preorderFrom_injective children children' (k + 1) hc, preorderFrom_injective rest rest' k hr]

/-- **The preorder view determines the forest.** -/
theorem preorder_injective {f g : Sheet} (h : f.preorder = g.preorder) : f = g := preorderFrom_injective f g 0 h

/-! ## Which lists are views -/

/-- What may come right behind a statement: one at most as deep, or one right below it if it is a heading. -/
def Follows (p q : Nat × Statement) : Prop := q.1 ≤ p.1 ∨ (q.1 = p.1 + 1 ∧ p.2.isHeading = true)

theorem head?_preorderFrom : ∀ (f : Sheet) (k : Nat), ∀ p ∈ (preorderFrom k f).head?, p.1 = k
  | nil, _, p, hp => by cases hp
  | leaf _ _, _, p, hp => by cases hp; rfl
  | block _ _ _, _, p, hp => by cases hp; rfl

/-- **In a view every statement follows the one before it.** -/
theorem isChain_preorderFrom : ∀ (f : Sheet) (k : Nat), (preorderFrom k f).IsChain Follows
  | nil, _ => List.IsChain.nil
  | leaf item rest, k => by
    refine List.isChain_cons.2 ⟨fun q hq => Or.inl ?_, isChain_preorderFrom rest k⟩
    rw [head?_preorderFrom rest k q hq]
  | block heading children rest, k => by
    have hbody : (preorderFrom (k + 1) children ++ preorderFrom k rest).IsChain Follows := by
      refine (isChain_preorderFrom children (k + 1)).append (isChain_preorderFrom rest k) fun p hp q hq => Or.inl ?_
      have := le_of_mem_preorderFrom children (k + 1) p (List.mem_of_getLast? hp)
      rw [head?_preorderFrom rest k q hq]
      omega
    refine List.isChain_cons.2 ⟨fun q hq => ?_, hbody⟩
    rw [List.head?_append] at hq
    cases hc : (preorderFrom (k + 1) children).head? with
    | none =>
      rw [hc, Option.none_or] at hq
      exact Or.inl (Nat.le_of_eq (head?_preorderFrom rest k q hq))
    | some p =>
      rw [hc, Option.some_or] at hq
      obtain rfl : p = q := Option.some.inj hq
      exact Or.inr ⟨head?_preorderFrom children (k + 1) p hc, rfl⟩

end Forest
end Offside
