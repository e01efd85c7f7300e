import Offside.Proofs.Replacing

/-!
# A check says what a build will come to

A check and a build read and compile on ways of their own.  Both reports are functions of what
was read and of what came of compiling it (`check_report`, `build_report`), so they differ only
where there is CSS to be written.
-/
namespace Offside

/-- Where a compile error lies, as a report shows it. -/
structure Located where
  code : String
  index : Nat
  position : Position
  source : List Char
deriving DecidableEq, Repr

def Report.located? (r : Report) : Option Located :=
  match r.outcome with
  | .compileError source fault =>
    some { code := fault.cause.code, index := fault.index, position := fault.position source, source := source }
  | _ => none

namespace World

theorem read_stdout (w : World) (input : Stream) : (w.read input).1.stdout = w.stdout := by
  cases input <;> rfl

theorem compile_unchanged (w : World) (o : Options) (source : List Char) :
    (w.compile o source).1.disk = w.disk ∧ (w.compile o source).1.stdout = w.stdout := by
  unfold compile
  split <;> exact ⟨rfl, rfl⟩

theorem check_unchanged (w : World) (o : Options) (input : Stream) :
    (w.check o input).1.disk = w.disk ∧ (w.check o input).1.stdout = w.stdout := by
  have hread := w.read_disk input
  have hout := w.read_stdout input
  unfold check
  cases hr : w.read input with
  | mk reader answer =>
    rw [hr] at hread hout
    cases answer with
    | error fault => exact ⟨hread.1, hout⟩
    | ok source =>
      obtain ⟨hdisk, hstdout⟩ := reader.compile_unchanged o source
      simp only
      cases hc : reader.compile o source with
      | mk after result =>
        rw [hc] at hdisk hstdout
        cases result <;> exact ⟨hdisk.trans hread.1, hstdout.trans hout⟩

/-- What a check reports, by what was read and what came of compiling it. -/
def checked (o : Options) : Except ReadFault (List Char) → Outcome
  | .error fault => .readError fault
  | .ok source =>
    match Offside.compile o source with
    | .error fault => .compileError source fault
    | .ok css => .valid (Utf8.encode css).length

theorem check_report (w : World) (o : Options) (input : Stream) :
    (w.check o input).2 = { input := input, outcome := checked o (w.read input).2 } := by
  unfold check
  cases w.read input with
  | mk reader answer =>
    cases answer with
    | error fault => rfl
    | ok source =>
      simp only [checked]
      cases hc : Offside.compile o source with
      | error fault => rw [reader.compile_error hc]
      | ok css =>
        obtain ⟨noted, hnoted, -⟩ := reader.compile_ok hc
        rw [hnoted]

/-- A build that finds nothing to write reports what a check reports; otherwise it tells how the writing went. -/
theorem build_report {w after : World} {o : Options} {input output : Stream} {r : Report}
    (h : w.build o input output none = (after, .ok r)) :
    r = (w.check o input).2 ∧
        ((∃ fault, r.outcome = .readError fault) ∨ ∃ source fault, r.outcome = .compileError source fault) ∨
      ∃ css result, (w.check o input).2 = { input := input, outcome := .valid (Utf8.encode css).length } ∧
        r = { input := input, outcome := written output css result } := by
  rw [check_report]
  unfold build at h
  cases hread : w.read input with
  | mk reader answer =>
    rw [hread] at h
    cases answer with
    | error fault =>
      cases h
      exact Or.inl ⟨rfl, Or.inl ⟨fault, rfl⟩⟩
    | ok source =>
      simp only at h
      simp only [checked]
      cases hc : Offside.compile o source with
      | error fault =>
        obtain ⟨final, hbuild, -⟩ := reader.buildText_error input output hc
        rw [hbuild] at h
        cases h
        exact Or.inl ⟨rfl, Or.inr ⟨source, fault, rfl⟩⟩
      | ok css =>
        obtain ⟨final, hbuild, -⟩ := reader.buildText_ok input output hc
        rw [hbuild] at h
        cases hw : (reader.write css output).2 with
        | error noName =>
          rw [hw] at h
          cases h
        | ok result =>
          rw [hw] at h
          cases h
          exact Or.inr ⟨css, result, rfl, rfl⟩

end World

/-- **A check predicts the build.**  It changes no file and writes nothing.  It finds a source valid exactly if a build
from the same state gets as far as writing, and then both count the same bytes; any other report is the same, fault
and place included. -/
theorem World.check_predicts_build (w : World) (o : Options) (input output : Stream) :
    let c := (w.check o input).2
    ((w.check o input).1.disk = w.disk ∧ (w.check o input).1.stdout = w.stdout) ∧
    ∀ after r, w.build o input output none = (after, .ok r) →
      (c.status = "VALID" ↔ r.status = "COMPILED" ∨ r.status = "WRITE_ERROR") ∧
      (c.status = "VALID" → ∃ bytes, c.bytes? = some bytes ∧ r.bytes? = some bytes) ∧
      (c.status ≠ "VALID" → r.status = c.status ∧ c.success = false ∧ r.success = false ∧
        (∃ message, c.error? = some message ∧ r.error? = some message) ∧
        (c.status = "COMPILE_ERROR" → ∃ place, c.located? = some place ∧ r.located? = some place)) := by
  intro c
  refine ⟨w.check_unchanged o input, fun after r h => ?_⟩
  rcases World.build_report h with ⟨hr, hfailed⟩ | ⟨css, result, hc, rfl⟩
  · -- nothing to write, and one report
    have hrc : r = c := hr
    subst hrc
    rcases hfailed with ⟨fault, hf⟩ | ⟨source, fault, hf⟩
    · refine ⟨?_, ?_, ?_⟩ <;> cases fault <;>
        simp [Report.status, Report.success, Report.error?, hf]
    · simp [Report.status, Report.success, Report.error?, Report.located?, hf]
  · have hvalid : c.outcome = .valid (Utf8.encode css).length := congrArg Report.outcome hc
    cases result <;> simp [Report.status, Report.bytes?, World.written, hvalid]

/-- A source that compiles and cannot be written out, because a file is in the way, and one with a fault in it. -/
theorem World.check_predicts_build_blocked :
    let files : FileTree :=
      { entries := [(["s".toList], .file (Utf8.encode "a\n  b: c".toList) (.second 0)),
          (["t".toList], .file (Utf8.encode "a\r\n: é".toList) (.second 0))] }
    let w : World := { disk := { files := files }, here := [] }
    (∃ after r, w.build {} (.file "s") (.file "s/o") none = (after, .ok r) ∧ r.status = "WRITE_ERROR" ∧
      (w.check {} (.file "s")).2.status = "VALID" ∧
      ∃ bytes, (w.check {} (.file "s")).2.bytes? = some bytes ∧ r.bytes? = some bytes) ∧
    ∃ after r place, w.build {} (.file "t") (.file "o") none = (after, .ok r) ∧
      (w.check {} (.file "t")).2.status = "COMPILE_ERROR" ∧
      (w.check {} (.file "t")).2.located? = some place ∧ r.located? = some place := by
  intro files w
  have hwritten : (w.build {} (.file "s") (.file "s/o") none).2 = .ok
      { input := .file "s"
        outcome := .writeError (.file "s/o") 14 (.file { cause := .existing, path := .ofString "s" }) } := by decide
  have hfaulty : (w.build {} (.file "t") (.file "o") none).2 = .ok
      { input := .file "t", outcome := .compileError "a\n: é".toList { cause := .emptyProperty, index := 2 } } := by decide
  obtain ⟨hvalid, hbytes, -⟩ := (check_predicts_build w {} (.file "s") (.file "s/o")).2 _ _ (Prod.ext rfl hwritten)
  obtain ⟨-, -, hsame⟩ := (check_predicts_build w {} (.file "t") (.file "o")).2 _ _ (Prod.ext rfl hfaulty)
  have hs : (w.check {} (.file "s")).2.status = "VALID" := hvalid.2 (Or.inr rfl)
  have ht : (w.check {} (.file "t")).2.status = "COMPILE_ERROR" := by decide
  have hne : (w.check {} (.file "t")).2.status ≠ "VALID" := by rw [ht]; decide
  obtain ⟨-, -, -, -, hplace⟩ := hsame hne
  obtain ⟨place, hc, hb⟩ := hplace ht
  exact ⟨⟨_, _, Prod.ext rfl hwritten, rfl, hs, hbytes hs⟩, _, _, place, Prod.ext rfl hfaulty, ht, hc, hb⟩

end Offside
