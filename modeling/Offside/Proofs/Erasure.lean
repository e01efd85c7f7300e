import Offside.Forest

/-!
# A stylesheet without its comments

Erasing deletes every remark and clears every comment field.  A statement is read
the same way whatever comment goes with it (`Statement.readMain_erase`), and the
preorder view of an erased forest is the erased view (`Forest.preorder_eraseComments`).
-/
namespace Offside

def Leaf.eraseComment : Leaf → Option Leaf
  | .define name value constant _ => some (.define name value constant none)
  | .declare property value _ => some (.declare property value none)
  | .remark _ => none

def Heading.eraseComment : Heading → Heading
  | .rule selector _ => .rule selector none
  | .atRule name params _ => .atRule name params none

/-- A statement without its comment; of a remark nothing is left. -/
def Statement.eraseComment : Statement → Option Statement
  | .leaf item => item.eraseComment.map .leaf
  | .heading h => some (.heading h.eraseComment)

/-- Deletes the remarks and clears the comment fields. -/
def Forest.eraseComments : Sheet → Sheet
  | .nil => .nil
  | .leaf item rest =>
    match item.eraseComment with
    | none => rest.eraseComments
    | some item => .leaf item rest.eraseComments
  | .block heading children rest => .block heading.eraseComment children.eraseComments rest.eraseComments
  | .foreign item _ => nomatch item

/-- The same in the preorder view. -/
def eraseView (view : List (Nat × Statement)) : List (Nat × Statement) :=
  view.filterMap fun p => p.2.eraseComment.map (Prod.mk p.1)

theorem eraseView_append (a b : List (Nat × Statement)) : eraseView (a ++ b) = eraseView a ++ eraseView b :=
  List.filterMap_append

theorem Forest.preorderFrom_eraseComments : ∀ (f : Sheet) (k : Nat),
    preorderFrom k f.eraseComments = eraseView (preorderFrom k f)
  | .nil, _ => rfl
  | .leaf item rest, k => by
    have ih := preorderFrom_eraseComments rest k
    cases h : item.eraseComment with
    | none => simpa [eraseComments, preorderFrom, eraseView, Statement.eraseComment, h] using ih
    | some item' => simpa [eraseComments, preorderFrom, eraseView, Statement.eraseComment, h] using ih
  | .block heading children rest, k => by
    have ih := preorderFrom_eraseComments children (k + 1)
    have ih' := preorderFrom_eraseComments rest k
    rw [eraseComments, preorderFrom, preorderFrom, ih, ih', ← eraseView_append]
    rfl

theorem Forest.preorder_eraseComments (f : Sheet) : f.eraseComments.preorder = eraseView f.preorder :=
  preorderFrom_eraseComments f 0

namespace Statement

/-- Erasing leaves a heading a heading. -/
theorem isHeading_of_eraseComment {s t : Statement} (h : s.eraseComment = some t) : t.isHeading = s.isHeading := by
  cases s with
  | leaf item =>
    obtain ⟨item', -, rfl⟩ := Option.map_eq_some_iff.1 h
    rfl
  | heading heading =>
    cases h
    rfl

theorem readDefine_erase (main : List Char) (comment : Option Comment) :
    (readDefine main comment).map eraseComment = (readDefine main none).map some := by
  unfold readDefine
  split
  · rfl
  · split
    · rfl
    · generalize splitConst _ = value
      rfl

theorem readAtRule_erase (main : List Char) (comment : Option Comment) :
    (readAtRule main comment).map eraseComment = (readAtRule main none).map some := by
  unfold readAtRule
  simp only
  split <;> rfl

theorem readPlain_erase (main : List Char) (comment : Option Comment) :
    (readPlain main comment).map eraseComment = (readPlain main none).map some := by
  unfold readPlain
  split
  · rfl
  · simp only
    split
    · split <;> rfl
    · rfl

/-- **The comment of a statement is not read**: without it the same statement is read, or none if it was a remark. -/
theorem readMain_erase (main : List Char) (comment : Option Comment) :
    (readMain main comment).map (fun s => s.bind eraseComment) = readMain main none := by
  have lift : ∀ x y : Except Cause Statement, x.map eraseComment = y.map some →
      (x.map some).map (fun s => s.bind eraseComment) = y.map some := by
    intro x y h
    rw [← h]
    cases x <;> rfl
  unfold readMain
  split
  · cases comment <;> rfl
  · exact lift _ _ (readDefine_erase _ comment)
  · exact lift _ _ (readAtRule_erase _ comment)
  · exact lift _ _ (readPlain_erase _ comment)

end Statement
end Offside
