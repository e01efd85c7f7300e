import Offside.Proofs.Checking
import Offside.Proofs.Pointing

/-!
# What a build answers

A build reads, compiles and writes, and each of these may end it.  What comes of it is said once, by the stage it got to
(`World.build_comes`); the fields of the report are read off that.  Writing is the only stage that may leave no report, and
does so for a path without a last name alone (`World.write_error_iff`).
-/
namespace Offside

/-! ## Positions -/

theorem Utf8.length_encode : ∀ cs : List Char, (Utf8.encode cs).length = utf8Length cs
  | [] => rfl
  | c :: cs => by
    have ih := Utf8.length_encode cs
    rw [Utf8.encode] at ih ⊢
    rw [List.flatMap_cons, List.length_append, ih, String.length_utf8EncodeChar, utf8Length]

namespace Position

/-- The position is the one right behind `before`: whole lines, and the beginning of one more. -/
def Follows (p : Position) (before : List Char) : Prop :=
  ∃ (lines : List (List Char)) (start : List Char), before = lines.flatMap (· ++ ['\n']) ++ start ∧
    (∀ line ∈ lines, '\n' ∉ line) ∧ '\n' ∉ start ∧ p.line = lines.length + 1 ∧ p.column = start.length + 1 ∧
      p.byteOffset = (Utf8.encode before).length

theorem after_concat_break (before : List Char) : (after (before ++ ['\n'])).line = (after before).line + 1 ∧
    (after (before ++ ['\n'])).column = 1 := by
  simp [after]

theorem after_concat_of_ne (before : List Char) {c : Char} (hc : c ≠ '\n') :
    (after (before ++ [c])).line = (after before).line ∧ (after (before ++ [c])).column = (after before).column + 1 := by
  simp [after, hc]

theorem follows_after (before : List Char) : (after before).Follows before := by
  induction before using List.reverseRecOn with
  | nil => exact ⟨[], [], rfl, by simp, by simp, rfl, rfl, rfl⟩
  | append_singleton before c ih =>
    obtain ⟨lines, start, hbefore, hlines, hstart, hline, hcolumn, -⟩ := ih
    have hbytes : (after (before ++ [c])).byteOffset = (Utf8.encode (before ++ [c])).length :=
      (Utf8.length_encode _).symm
    by_cases hc : c = '\n'
    · -- the line that was begun is whole now
      subst hc
      obtain ⟨hline', hcolumn'⟩ := after_concat_break before
      refine ⟨lines ++ [start], [], by simp [hbefore], ?_, by simp, ?_, hcolumn', hbytes⟩
      · simpa [or_imp, forall_and] using ⟨hlines, hstart⟩
      · rw [hline', hline, List.length_append, List.length_singleton]
    · obtain ⟨hline', hcolumn'⟩ := after_concat_of_ne before hc
      refine ⟨lines, start ++ [c], by simp [hbefore], hlines, ?_, hline'.trans hline, ?_, hbytes⟩
      · simpa [hstart] using Ne.symm hc
      · rw [hcolumn', hcolumn, List.length_append, List.length_singleton]

end Position

/-! ## Paths without a last name -/

namespace Path

end Path

namespace World

theorem Takes.unique {w : World} {input : Stream} {source : Option (List Char)} {text text' : List Char}
    (h : w.Takes input source text) (h' : w.Takes input source text') : text = text' := by
  rcases h with rfl | ⟨rfl, hread⟩
  · rcases h' with h' | ⟨h', -⟩ <;> cases h'
    rfl
  · rcases h' with h' | ⟨-, h'⟩
    · cases h'
    · rw [hread] at h'
      cases h'
      rfl

/-- **What comes of a build**, by the stage that ends it. -/
inductive Comes (w : World) (o : Options) (input output : Stream) (source : Option (List Char)) :
    Except NoName Report → Prop
  | unread {fault : ReadFault} (hsource : source = none) (hread : (w.read input).2 = .error fault) :
    Comes w o input output source (.ok { input := input, outcome := .readError fault })
  | refused {text : List Char} {fault : Fault} (htakes : w.Takes input source text)
    (hcompile : Offside.compile o text = .error fault) :
    Comes w o input output source (.ok { input := input, outcome := .compileError text fault })
  | sent {text css : List Char} {result : Except ReplaceFault Unit} (htakes : w.Takes input source text)
    (hcompile : Offside.compile o text = .ok css) (hwrite : (w.write css output).2 = .ok result) :
    Comes w o input output source (.ok { input := input, outcome := written output css result })
  | nameless {text css : List Char} {noName : NoName} (htakes : w.Takes input source text)
    (hcompile : Offside.compile o text = .ok css) (hwrite : (w.write css output).2 = .error noName) :
    Comes w o input output source (.error noName)

theorem comes_buildText {w reader : World} {o : Options} {input output : Stream} {source : Option (List Char)}
    {text : List Char} (htakes : w.Takes input source text) (hdisk : reader.disk = w.disk) (hhere : reader.here = w.here) :
    w.Comes o input output source (reader.buildText o input output text).2 := by
  cases hcompile : Offside.compile o text with
  | error fault =>
    obtain ⟨after, hbuild, -⟩ := reader.buildText_error input output hcompile
    rw [hbuild]
    exact .refused htakes hcompile
  | ok css =>
    obtain ⟨after, hbuild, -⟩ := reader.buildText_ok input output hcompile
    rw [hbuild, (write_congr hdisk hhere css output).2.2]
    cases hwrite : (w.write css output).2 with
    | error noName => exact .nameless htakes hcompile hwrite
    | ok result => exact .sent htakes hcompile hwrite

theorem build_comes (w : World) (o : Options) (input output : Stream) (source : Option (List Char)) :
    w.Comes o input output source (w.build o input output source).2 := by
  obtain ⟨hdisk, hhere⟩ := w.read_disk input
  cases source with
  | some text => exact comes_buildText (Or.inl rfl) rfl rfl
  | none =>
    unfold build
    cases hread : w.read input with
    | mk reader answer =>
      have hanswer : (w.read input).2 = answer := by rw [hread]
      rw [hread] at hdisk hhere
      cases answer with
      | ok text => exact comes_buildText (Or.inr ⟨rfl, hanswer⟩) hdisk hhere
      | error fault => exact .unread rfl hanswer

section

variable {w : World} {o : Options} {input output : Stream} {source : Option (List Char)} {r : Report}

theorem Comes.exists_fault (h : w.Comes o input output source (.ok r)) (hr : r.status = "COMPILE_ERROR") :
    ∃ text fault, r = { input := input, outcome := .compileError text fault } ∧ w.Takes input source text ∧
      Offside.compile o text = .error fault := by
  cases h with
  | @unread fault => cases fault <;> simp [Report.status] at hr
  | @refused text fault htakes hcompile => exact ⟨text, fault, rfl, htakes, hcompile⟩
  | @sent _ _ result => cases result <;> simp [Report.status, written] at hr

end

end World

end Offside
