import Offside.Proofs.Rendering
import Offside.Proofs.Visible
import Offside.Source

/-!
# What is kept of a line with a comment

`Comment.extract` takes a line apart into a statement and a comment.  Nothing that can be seen is lost
on the way but what stands behind a block comment that is closed on the line (`Comment.behind`), and
no marker is left in the statement (`Comment.visible_extract`).
-/
namespace Offside
namespace Comment

/-- What is left of a text that begins with a comment.  Only a block that is closed leaves anything. -/
def afterComment : List Char → List Char
  | '/' :: '*' :: body => (afterCloser id body).getD []
  | _ => []

/-- What stands behind the comment of a line. -/
def behind (content : List Char) : List Char :=
  (start? content).elim [] fun start => afterComment (content.drop start)

theorem isPrefixOf_closer (a b : Char) (cs : List Char) :
    closer.isPrefixOf (a :: b :: cs) = (a == '*' && b == '/') := by
  simp [closer, List.isPrefixOf, Bool.beq_comm]

theorem afterCloser_eq : ∀ cs : List Char, afterCloser id cs = (indexOf? closer cs).map fun stop => cs.drop (stop + 2)
  | [] => rfl
  | [_] => by simp [afterCloser, indexOf?, closer, List.isPrefixOf]
  | a :: b :: cs => by
    have ih := afterCloser_eq (b :: cs)
    rw [afterCloser, indexOf?, isPrefixOf_closer]
    by_cases h : (a == '*' && b == '/') = true
    · simp [h]
    · simp only [id_eq, h, Bool.false_eq_true, ↓reduceIte, ih, Option.map_map]
      rfl

theorem start?_of_isPrefix {content main : List Char} (h : main <+: code content) : start? main = none := by
  obtain ⟨more, hmore⟩ := h
  have hcode : code (main ++ more) = main ++ more := by
    rw [hmore]
    exact codeFrom_codeFrom none false content
  rw [start?_eq, if_pos (code_of_isPrefix hcode)]

/-- A comment and what it leaves are all that its marker begins. -/
theorem visible_ofTail {tail rest : List Char} {d : Char} (h : tail = '/' :: d :: rest) (hd : d = '/' ∨ d = '*') :
    visible tail = visible (ofTail tail).raw ++ visible (afterComment tail) := by
  subst h
  rcases hd with rfl | rfl
  · have hopen : visible ('/' :: '/' :: rest) = visible ['/', '/'] ++ visible rest := visible_append ['/', '/'] rest
    rw [ofTail_line, show '/' :: '/' :: trimRight rest = ['/', '/'] ++ trimRight rest from rfl, hopen, visible_append,
      visible_trimRight]
    exact (List.append_nil _).symm
  · have hafter : afterComment (opener ++ rest) = (afterCloser id rest).getD [] := rfl
    rw [show '/' :: '*' :: rest = opener ++ rest from rfl, hafter, afterCloser_eq]
    cases hi : indexOf? closer rest with
    | none => simp [ofTail_open hi]
    | some stop =>
      have hcut : rest = rest.take stop ++ closer ++ rest.drop (stop + 2) := by
        rw [← (eq_take_of_indexOf? hi).1, List.take_append_drop]
      rw [ofTail_block hi, Option.map_some, Option.getD_some, ← visible_append, List.append_assoc, ← hcut]

/-- **What a line is taken apart into covers it**, but for what stands behind a block comment that is closed, and the
comment is found once and for all. -/
theorem visible_extract (content : List Char) :
    visible content = visible (extract content).1 ++ visible ((extract content).2.elim [] Comment.raw) ++
        visible (behind content) ∧
      start? (extract content).1 = none := by
  by_cases h : code content = content
  · have hstart : start? content = none := by rw [start?_eq, if_pos h]
    rw [extract_eq, if_pos h, behind, hstart, start?_eq, if_pos ((code_trim_iff content).2 h)]
    simp
  · have hstart : start? content = some (code content).length := by rw [start?_eq, if_neg h]
    obtain ⟨d, rest, htail, hd⟩ := exists_tail h
    obtain ⟨blanks, -, hblanks⟩ := exists_trimRight_append (code content)
    have hcover := congrArg visible (code_append_tail content)
    rw [visible_append, visible_ofTail htail hd] at hcover
    rw [extract_eq, if_neg h, behind, hstart]
    refine ⟨?_, start?_of_isPrefix ⟨blanks, hblanks.symm⟩⟩
    rw [← hcover, visible_trimRight, List.append_assoc]
    rfl

/-- The text behind a block comment is in neither part. -/
theorem extract_loses_text :
    let content := "a /* b */ c".toList
    extract content = (['a'], some { kind := .block, text := ['b'], raw := "/* b */".toList }) ∧
      visible content ≠ visible (extract content).1 ++ visible ((extract content).2.elim [] Comment.raw) := by
  decide

end Comment
end Offside
