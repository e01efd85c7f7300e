import Offside.Build.Watch
import Offside.Proofs.Replacing

/-!
# What a watcher has written stays

A watcher is called again and again while others edit files, between the calls and while a change settles.  `Reaches` is
all that can come of it, with `conduct` as what the others hold to.  `Does` tells all that a call can do, once a change
has settled: compiling either leaves all files alone or replaces the output.
-/
namespace Offside

/-! ## Others -/

/-- What others hold to: the disks so far, the disk before an edit and the one after it. -/
abbrev Conduct := List Disk → Disk → Disk → Prop

namespace Disk

/-- Each of the edits is within `conduct`. -/
def Meddles (conduct : Conduct) (here : Place) : List Disk → Disk → List Edit → Prop
  | _, _, [] => True
  | past, d, e :: edits => conduct past d (d.apply here e) ∧ Meddles conduct here (d :: past) (d.apply here e) edits

/-- The disks so far, once the edits are made. -/
def passed (here : Place) : List Disk → Disk → List Edit → List Disk
  | past, _, [] => past
  | past, d, e :: edits => passed here (d :: past) (d.apply here e) edits

/-- What every edit within `conduct` preserves, all of them preserve. -/
theorem Meddles.preserves {conduct : Conduct} {here : Place} {P : List Disk → Disk → Prop}
    (hstep : ∀ past before after, conduct past before after → P past before → P (before :: past) after)
    {edits : List Edit} {past : List Disk} {d : Disk} (h : Meddles conduct here past d edits) (hp : P past d) :
    P (passed here past d edits) (d.applyAll here edits) := by
  induction edits generalizing past d with
  | nil => exact hp
  | cons e edits ih => exact ih h.2 (hstep past d _ h.1 hp)

end Disk

namespace Watcher

theorem new?_eq_some {w : World} {o : Options} {input output : Stream} {interval debounce : Seconds} {reporting : Bool}
    {first : Watcher} (h : new? w o input output interval debounce reporting = some first) :
    (first.options = o ∧ first.output = output ∧ first.reporting = reporting ∧ first.previous = none ∧
      first.stamp = none) ∧
      ∃ path, input = .file path ∧ first.input = (Path.ofString path).resolve w.here := by
  cases input with
  | standard => cases h
  | file path =>
    cases h
    exact ⟨⟨rfl, rfl, rfl, rfl, rfl⟩, path, rfl, rfl⟩

theorem sound_of_new? {w : World} {o : Options} {input output : Stream} {interval debounce : Seconds} {reporting : Bool}
    {first : Watcher} (h : new? w o input output interval debounce reporting = some first)
    (hhere : ∀ name ∈ w.here, Path.Nameable name) : first.input.Sound := by
  obtain ⟨-, path, -, hinput⟩ := new?_eq_some h
  rw [hinput]
  exact (Path.sound_ofChars path.toList).resolve hhere

/-! ## Calls -/

/-- How a watcher is called. -/
inductive Call
  | initial
  /-- `meanwhile` is what others do while a change settles. -/
  | poll (meanwhile : List Edit)

/-- The world and the watcher after a call, and what it returns unless it fails. -/
abbrev Answer := World × Watcher × Except Escape (Option Report)

def call (watcher : Watcher) : Call → World → Answer
  | .initial, w => watcher.initial w
  | .poll meanwhile, w => watcher.poll meanwhile w

/-- Whether a call lets a change settle. -/
def settles (watcher : Watcher) (w : World) : Call → Bool
  | .initial => false
  | .poll _ => !watcher.debounce.isZero &&
    match watcher.stirred w with
    | .ok stirred => stirred
    | .error _ => false

/-- What the clock says to a call that it does not let sleep. -/
def refusal? (watcher : Watcher) (w : World) (c : Call) : Option SleepFault :=
  if watcher.settles w c then w.sleepFault? watcher.debounce else none

/-- What others do in the course of a call: nothing, unless a change settles. -/
def during (watcher : Watcher) (w : World) (c : Call) : List Edit :=
  match c with
  | .initial => []
  | .poll meanwhile => if watcher.settles w c && (watcher.refusal? w c).isNone then meanwhile else []

/-! ## Compiling -/

/-- What the watcher reads. -/
def source (watcher : Watcher) (w : World) : Except ReadFault (List Char) := (w.read (.file watcher.inputText)).2

theorem tellReport_disk (watcher : Watcher) (w : World) (r : Report) :
    (watcher.tellReport w r).disk = w.disk ∧ (watcher.tellReport w r).here = w.here := by
  unfold tellReport
  split <;> exact ⟨rfl, rfl⟩

theorem ofString_inputText {watcher : Watcher} (h : watcher.input.Sound) :
    Path.ofString watcher.inputText = watcher.input := by
  unfold Path.ofString inputText
  rw [String.toList_ofList, h.ofChars_text]

/-- A watcher reads the file that it looks at. -/
theorem source_of_look {watcher : Watcher} {w : World} {bytes : List UInt8} {written : Moment} (h : watcher.input.Sound)
    (hfile : w.files.look w.here watcher.input = .ok (.file bytes written)) :
    watcher.source w = (Utf8.readText bytes).mapError .decode := by
  unfold source World.read FileTree.find
  simp only [ofString_inputText h, hfile]

theorem read_eq (watcher : Watcher) (w : World) : w.read (.file watcher.inputText) = (w, watcher.source w) := by
  unfold source World.read
  rfl

/-- A source that cannot be read or compiled, or is the one compiled last, leaves everything as it is. -/
theorem compile_quiet {watcher : Watcher} {w : World} (h : ∀ text css, watcher.source w = .ok text →
      Offside.compile watcher.options text = .ok css → watcher.previous = some text) :
    ∃ after r, watcher.compile w = (after, watcher, .ok r) ∧ after.disk = w.disk ∧ after.here = w.here := by
  unfold compile
  simp only [read_eq]
  cases hsource : watcher.source w with
  | error fault =>
    cases fault with
    | notFound path => exact ⟨_, _, rfl, rfl, rfl⟩
    | file fault => exact ⟨_, _, rfl, tellReport_disk _ _ _⟩
    | decode fault => exact ⟨_, _, rfl, tellReport_disk _ _ _⟩
  | ok text =>
    simp only
    split
    · exact ⟨_, _, rfl, rfl, rfl⟩
    · rename_i hnew
      cases hcompile : Offside.compile watcher.options text with
      | ok css => exact absurd (h text css hsource hcompile) (by simpa using hnew)
      | error fault =>
        obtain ⟨after, hbuild, hdisk, hhere⟩ := w.buildText_error (.file watcher.inputText) watcher.output hcompile
        rw [World.build, hbuild]
        refine ⟨_, _, rfl, ?_⟩
        exact ⟨(tellReport_disk _ _ _).1.trans hdisk, (tellReport_disk _ _ _).2.trans hhere⟩

/-- What a watcher is after it has tried to replace its output, and what it answers. -/
def wrote (watcher : Watcher) (text css : List Char) :
    Except NoName (Except ReplaceFault Unit) → Watcher × Except Escape (Option Report)
  | .error noName => (watcher, .error (.noName noName))
  | .ok result =>
    ((match result with
      | .ok () => { watcher with previous := some text }
      | .error _ => watcher),
      .ok (some { input := .file watcher.inputText, outcome := World.written watcher.output css result }))

theorem wrote_of_ne (watcher : Watcher) (text css : List Char) {answer : Except NoName (Except ReplaceFault Unit)}
    (h : answer ≠ .ok (.ok ())) : (watcher.wrote text css answer).1 = watcher := by
  unfold wrote
  split
  · rfl
  · split
    · exact absurd rfl h
    · rfl

/-- A source that compiles and is not the one compiled last is written out. -/
theorem compile_writes {watcher : Watcher} {w : World} {text css : List Char} (hsource : watcher.source w = .ok text)
    (hcompile : Offside.compile watcher.options text = .ok css) (hnew : watcher.previous ≠ some text) :
    ∃ after, watcher.compile w = (after, watcher.wrote text css (w.write css watcher.output).2) ∧
      after.disk = (w.write css watcher.output).1.disk ∧ after.here = w.here := by
  obtain ⟨built, hbuild, hdisk, hhere⟩ := w.buildText_ok (.file watcher.inputText) watcher.output hcompile
  unfold compile
  simp only [read_eq, hsource]
  rw [if_neg (by simpa using hnew), World.build, hbuild]
  cases (w.write css watcher.output).2 with
  | error noName => exact ⟨built, rfl, hdisk, hhere⟩
  | ok result =>
    cases result with
    | ok => exact ⟨_, rfl, (tellReport_disk _ _ _).1.trans hdisk, (tellReport_disk _ _ _).2.trans hhere⟩
    | error fault => exact ⟨_, rfl, (tellReport_disk _ _ _).1.trans hdisk, (tellReport_disk _ _ _).2.trans hhere⟩

/-! ## What a call does -/

/-- What can come of a call that finds the world `w` once a change has settled: the clock refuses, it cannot look at its
source, there is nothing new, there is nothing to write, or CSS is written. -/
inductive Does (watcher : Watcher) (w : World) (refusal : Option SleepFault) : Answer → Prop
  | refused {fault : SleepFault} (h : refusal = some fault) : Does watcher w refusal (w, watcher, .error (.sleep fault))
  | barred {fault : FileFault} (hlook : watcher.look w = .error fault) :
    Does watcher w refusal (w, watcher, .error (.file fault))
  | idle {stamp : Option Stamp} (hlook : watcher.look w = .ok stamp) (hsame : stamp = none ∨ stamp = watcher.stamp) :
    Does watcher w refusal (w, watcher, .ok none)
  | quiet {stamp : Option Stamp} {after : World} {r : Option Report} (hlook : watcher.look w = .ok stamp)
      (hquiet : ∀ text css, watcher.source w = .ok text → Offside.compile watcher.options text = .ok css →
        watcher.previous = some text)
      (hdisk : after.disk = w.disk) (hhere : after.here = w.here) :
    Does watcher w refusal (after, { watcher with stamp := stamp }, .ok r)
  | writes {stamp : Option Stamp} {text css : List Char} {after : World} (hlook : watcher.look w = .ok stamp)
      (hsource : watcher.source w = .ok text) (hcompile : Offside.compile watcher.options text = .ok css)
      (hdisk : after.disk = (w.write css watcher.output).1.disk) (hhere : after.here = w.here) :
    Does watcher w refusal (after, { watcher with stamp := stamp }.wrote text css (w.write css watcher.output).2)

theorem does_initial (watcher : Watcher) (w : World) (refusal : Option SleepFault) :
    watcher.Does w refusal (watcher.initial w) := by
  unfold initial
  cases hlook : watcher.look w with
  | error fault => exact .barred hlook
  | ok stamp =>
    simp only
    by_cases hquiet : ∀ text css, watcher.source w = .ok text → Offside.compile watcher.options text = .ok css →
        watcher.previous = some text
    · obtain ⟨after, r, heq, hdisk, hhere⟩ := @compile_quiet { watcher with stamp := stamp } w hquiet
      rw [heq]
      exact .quiet hlook hquiet hdisk hhere
    · simp only [not_forall] at hquiet
      obtain ⟨text, css, hsource, hcompile, hnew⟩ := hquiet
      obtain ⟨after, heq, hdisk, hhere⟩ :=
        @compile_writes { watcher with stamp := stamp } w text css hsource hcompile hnew
      rw [heq]
      exact .writes hlook hsource hcompile hdisk hhere

theorem settles_poll {watcher : Watcher} {w : World} {meanwhile : List Edit} :
    watcher.settles w (.poll meanwhile) = true ↔ watcher.debounce.isZero = false ∧ watcher.stirred w = .ok true := by
  rw [settles, Bool.and_eq_true, Bool.not_eq_true']
  refine and_congr_right fun _ => ?_
  cases watcher.stirred w <;> simp

theorem refusal?_eq_some {watcher : Watcher} {w : World} {c : Call} {fault : SleepFault} :
    watcher.refusal? w c = some fault ↔ watcher.settles w c = true ∧ w.sleepFault? watcher.debounce = some fault := by
  unfold refusal?
  split <;> simp_all

/-- A call that the clock refuses does nothing. -/
theorem call_of_refusal {watcher : Watcher} {w : World} {c : Call} {fault : SleepFault}
    (h : watcher.refusal? w c = some fault) :
    watcher.call c w = (w, watcher, .error (.sleep fault)) ∧ watcher.during w c = [] := by
  obtain ⟨hsettles, hfault⟩ := refusal?_eq_some.1 h
  cases c with
  | initial => cases hsettles
  | poll meanwhile =>
    obtain ⟨hzero, hstirred⟩ := settles_poll.1 hsettles
    constructor
    · simp [call, poll, hstirred, hzero, World.sleep, hfault]
    · simp [during, h]

/-- A call that does not find its source unchanged is an initial build, once the change has settled. -/
theorem call_eq_initial {watcher : Watcher} {w : World} {c : Call} (h : c = .initial ∨ watcher.stirred w = .ok true)
    (hclock : watcher.refusal? w c = none) :
    ∃ settled : World, settled.disk = w.disk.applyAll w.here (watcher.during w c) ∧ settled.here = w.here ∧
      watcher.call c w = watcher.initial settled := by
  cases c with
  | initial => exact ⟨w, rfl, rfl, rfl⟩
  | poll meanwhile =>
    have hstirred : watcher.stirred w = .ok true := h.resolve_left (by simp)
    simp only [call, poll, during, hclock, Option.isNone_none, Bool.and_true, hstirred]
    by_cases hzero : watcher.debounce.isZero = true
    · have hsettles : watcher.settles w (.poll meanwhile) = false := by simp [settles, hzero]
      rw [hsettles, if_pos hzero]
      exact ⟨w, rfl, rfl, rfl⟩
    · have hsettles : watcher.settles w (.poll meanwhile) = true := settles_poll.2 ⟨by simpa using hzero, hstirred⟩
      have hfault : w.sleepFault? watcher.debounce = none := by simpa [refusal?, hsettles] using hclock
      rw [hsettles, if_neg hzero, World.sleep, hfault]
      exact ⟨(w.tell (.slept watcher.debounce)).endure meanwhile, rfl, rfl, rfl⟩

theorem does_call (watcher : Watcher) (w : World) (c : Call) :
    ∃ settled : World, settled.disk = w.disk.applyAll w.here (watcher.during w c) ∧ settled.here = w.here ∧
      watcher.Does settled (watcher.refusal? w c) (watcher.call c w) := by
  cases hclock : watcher.refusal? w c with
  | some fault =>
    obtain ⟨hcall, hduring⟩ := call_of_refusal hclock
    rw [hcall, hduring]
    exact ⟨w, rfl, rfl, .refused rfl⟩
  | none =>
    by_cases hc : c = .initial ∨ watcher.stirred w = .ok true
    · obtain ⟨settled, hdisk, hhere, hcall⟩ := call_eq_initial hc hclock
      rw [hcall]
      exact ⟨settled, hdisk, hhere, watcher.does_initial settled none⟩
    · cases c with
      | initial => exact absurd (Or.inl rfl) hc
      | poll meanwhile =>
        have hunsettled : watcher.during w (.poll meanwhile) = [] := by
          have hsettles : ¬watcher.settles w (.poll meanwhile) = true := fun h => hc (Or.inr (settles_poll.1 h).2)
          simp [during, hsettles]
        rw [hunsettled]
        refine ⟨w, rfl, rfl, ?_⟩
        cases hlook : watcher.look w with
        | error fault =>
          have hstirred : watcher.stirred w = .error fault := by rw [stirred, hlook]; rfl
          simp only [call, poll, hstirred]
          exact .barred hlook
        | ok stamp =>
          have hstirred : watcher.stirred w = .ok (stamp.isSome && stamp != watcher.stamp) := by rw [stirred, hlook]; rfl
          cases hnew : stamp.isSome && stamp != watcher.stamp with
          | true => exact absurd (Or.inr (hstirred.trans (congrArg Except.ok hnew))) hc
          | false =>
            rw [hnew] at hstirred
            simp only [call, poll, hstirred]
            refine .idle hlook ?_
            cases stamp with
            | none => exact Or.inl rfl
            | some s => exact Or.inr (by simpa using hnew)

/-- Two watchers with the same source and output, whatever they remember. -/
structure SameTask (watcher other : Watcher) : Prop where
  options : watcher.options = other.options
  input : watcher.input = other.input
  output : watcher.output = other.output
  interval : watcher.interval = other.interval
  debounce : watcher.debounce = other.debounce
  reporting : watcher.reporting = other.reporting

theorem SameTask.refl (watcher : Watcher) : watcher.SameTask watcher := ⟨rfl, rfl, rfl, rfl, rfl, rfl⟩

theorem SameTask.trans {a b c : Watcher} (h : a.SameTask b) (h' : b.SameTask c) : a.SameTask c :=
  ⟨h.options.trans h'.options, h.input.trans h'.input, h.output.trans h'.output, h.interval.trans h'.interval,
    h.debounce.trans h'.debounce, h.reporting.trans h'.reporting⟩

/-- A call changes nothing of a watcher but what it remembers. -/
theorem Does.same {watcher : Watcher} {w : World} {refusal : Option SleepFault} {answer : Answer}
    (h : watcher.Does w refusal answer) : answer.1.here = w.here ∧ answer.2.1.SameTask watcher := by
  cases h with
  | refused _ => exact ⟨rfl, .refl _⟩
  | barred _ => exact ⟨rfl, .refl _⟩
  | idle _ _ => exact ⟨rfl, .refl _⟩
  | quiet _ _ _ hhere => exact ⟨hhere, rfl, rfl, rfl, rfl, rfl, rfl⟩
  | writes _ _ _ _ hhere =>
    refine ⟨hhere, ?_⟩
    unfold wrote
    split
    · exact ⟨rfl, rfl, rfl, rfl, rfl, rfl⟩
    · split <;> exact ⟨rfl, rfl, rfl, rfl, rfl, rfl⟩

/-! ## Whole watches -/

/-- All that can come of the watcher `first`: others edit files within `conduct`, and it is called.  The list holds the
disks there have been so far. -/
inductive Reaches (conduct : Conduct) (first : Watcher) (start : World) : List Disk → Watcher → World → Prop
  | start : Reaches conduct first start [] first start
  | edits {past : List Disk} {watcher : Watcher} {w : World} {edits : List Edit}
      (h : Reaches conduct first start past watcher w) (hm : Disk.Meddles conduct w.here past w.disk edits) :
    Reaches conduct first start (Disk.passed w.here past w.disk edits) watcher (w.endure edits)
  | call {past : List Disk} {watcher : Watcher} {w : World} (h : Reaches conduct first start past watcher w) (c : Call)
      (hm : Disk.Meddles conduct w.here past w.disk (watcher.during w c)) :
    Reaches conduct first start
      (w.disk.applyAll w.here (watcher.during w c) :: Disk.passed w.here past w.disk (watcher.during w c))
      (watcher.call c w).2.1 (watcher.call c w).1

theorem Reaches.same {conduct : Conduct} {first watcher : Watcher} {start w : World} {past : List Disk}
    (h : Reaches conduct first start past watcher w) : w.here = start.here ∧ watcher.SameTask first := by
  induction h with
  | start => exact ⟨rfl, .refl _⟩
  | edits _ _ ih => exact ih
  | @call past watcher w _ c _ ih =>
    obtain ⟨settled, -, hsettled, hdoes⟩ := watcher.does_call w c
    exact ⟨hdoes.same.1.trans (hsettled.trans ih.1), hdoes.same.2.trans ih.2⟩

theorem Reaches.called {conduct : Conduct} {first watcher : Watcher} {start w : World} {past : List Disk}
    (h : Reaches conduct first start past watcher w) (c : Call) (edits : List Edit) (hd : watcher.during w c = edits)
    (hm : Disk.Meddles conduct w.here past w.disk edits) :
    Reaches conduct first start (w.disk.applyAll w.here edits :: Disk.passed w.here past w.disk edits)
      (watcher.call c w).2.1 (watcher.call c w).1 := by
  subst hd
  exact h.call c hm

/-! ## The output of the last text compiled -/

/-- The text compiles, and the CSS is what lies at the path. -/
def Holds (o : Options) (here : Place) (output : Path) (text : List Char) (d : Disk) : Prop :=
  ∃ css written, Offside.compile o text = .ok css ∧ d.files.look here output = .ok (.file (Utf8.encode css) written)

/-- Others leave a file at the path alone. -/
def Spares (here : Place) (output : Path) : Conduct := fun _ before after =>
  ∀ bytes written, before.files.look here output = .ok (.file bytes written) →
    after.files.look here output = .ok (.file bytes written)

theorem spares_of_eq {here : Place} {output : Path} {past : List Disk} {before after : Disk}
    (h : after.files.look here output = before.files.look here output) : Spares here output past before after :=
  fun _ _ hb => h.trans hb

theorem Holds.spared {o : Options} {here : Place} {output : Path} {text : List Char} {past : List Disk}
    {before after : Disk} (h : Holds o here output text before) (hs : Spares here output past before after) :
    Holds o here output text after := by
  obtain ⟨css, written, hcompile, hlook⟩ := h
  exact ⟨css, written, hcompile, hs _ _ hlook⟩

/-- The output is that of the last text compiled. -/
def Kept (watcher : Watcher) (here : Place) (output : Path) (d : Disk) : Prop :=
  ∀ text, watcher.previous = some text → Holds watcher.options here output text d

theorem Kept.edits {watcher : Watcher} {conduct : Conduct} {here place : Place} {output : Path} {past : List Disk}
    {d : Disk} {edits : List Edit} (h : watcher.Kept here output d)
    (hspares : ∀ past before after, conduct past before after → Spares here output past before after)
    (hm : Disk.Meddles conduct place past d edits) : watcher.Kept here output (d.applyAll place edits) :=
  hm.preserves (P := fun _ d => watcher.Kept here output d)
    (fun past before after hc hk text hp => (hk text hp).spared (hspares past before after hc)) h

theorem Does.kept {watcher : Watcher} {w : World} {refusal : Option SleepFault} {answer : Answer} {output : String}
    (h : watcher.Does w refusal answer) (hout : watcher.output = .file output)
    (hk : watcher.Kept w.here (Path.ofString output) w.disk) :
    answer.2.1.Kept w.here (Path.ofString output) answer.1.disk := by
  cases h with
  | refused _ => exact hk
  | barred _ => exact hk
  | idle _ _ => exact hk
  | quiet _ _ hdisk _ =>
    intro text hp
    rw [hdisk]
    exact hk text hp
  | @writes stamp text css after _ _ hcompile hdisk _ =>
    cases hreplace : w.files.replaceFile w.here (Path.ofString output) (Utf8.encode css) with
    | mk files result =>
      rw [hout, World.write_file hreplace] at hdisk
      rw [hout, World.write_file hreplace]
      intro found hp
      rw [hdisk]
      by_cases hdone : result = .ok (.ok ())
      · subst hdone
        cases hp
        obtain ⟨⟨written, hlook⟩, -⟩ := FileTree.replaceFile_ok hreplace
        exact ⟨css, written, hcompile, hlook⟩
      · -- a text remembered from before: its CSS outlives the failure
        simp only [wrote_of_ne _ text css hdone] at hp ⊢
        obtain ⟨old, written, hcompiled, hlook⟩ := hk found hp
        exact ⟨old, written, hcompiled, FileTree.replaceFile_keeps hreplace hdone hlook⟩

theorem Reaches.kept {conduct : Conduct} {first watcher : Watcher} {start w : World} {past : List Disk} {output : String}
    (h : Reaches conduct first start past watcher w) (hout : first.output = .file output)
    (hspares : ∀ past before after, conduct past before after →
      Spares start.here (Path.ofString output) past before after)
    (hfirst : first.previous = none) : watcher.Kept start.here (Path.ofString output) w.disk := by
  induction h with
  | start =>
    intro text hp
    rw [hfirst] at hp
    cases hp
  | @edits past watcher w edits hr hm ih => exact ih.edits hspares hm
  | @call past watcher w hr c hm ih =>
    obtain ⟨hhere, hsame⟩ := hr.same
    obtain ⟨settled, hdisk, hsettled, hdoes⟩ := watcher.does_call w c
    have hk := ih.edits hspares hm
    rw [← hdisk, ← hhere, ← hsettled] at hk
    rw [← hhere, ← hsettled]
    exact hdoes.kept (hsame.output.trans hout) hk

/-- **The last good output is kept.**  Whatever others do but touch a file at the output, and however builds end: the text
that a watcher remembers compiles, and its CSS is what lies at the output. -/
theorem previous_written {start w : World} {o : Options} {input : Stream} {output : String} {interval debounce : Seconds}
    {reporting : Bool} {first watcher : Watcher} {past : List Disk} {text : List Char}
    (hnew : new? start o input (.file output) interval debounce reporting = some first)
    (h : Reaches (Spares start.here (Path.ofString output)) first start past watcher w)
    (hp : watcher.previous = some text) :
    ∃ css written, Offside.compile o text = .ok css ∧
      w.files.look w.here (Path.ofString output) = .ok (.file (Utf8.encode css) written) := by
  obtain ⟨⟨rfl, hout, -, hprevious, -⟩, -⟩ := new?_eq_some hnew
  obtain ⟨hhere, hsame⟩ := h.same
  rw [hhere, ← hsame.options]
  exact h.kept hout (fun _ _ _ hs => hs) hprevious text hp

/-- A source that no longer compiles, and changes once more while the change settles. -/
theorem previous_written_broken :
    let text := "a".toList
    let source (text : String) := Edit.write (Path.ofString "s") (Utf8.encode text.toList) none
    let start : World := { disk := ({} : Disk).apply [] (source "a"), here := [] }
    ∃ first past watcher w, new? start {} (.file "s") (.file "o") (.whole 1) (.whole 1) true = some first ∧
      Reaches (Spares [] (Path.ofString "o")) first start past watcher w ∧ watcher.previous = some text ∧
      (∃ written, w.files.look [] (Path.ofString "s") = .ok (.file (Utf8.encode "  c".toList) written)) ∧
      ∃ css written, Offside.compile {} text = .ok css ∧
        w.files.look w.here (Path.ofString "o") = .ok (.file (Utf8.encode css) written) := by
  intro text source start
  let first : Watcher :=
    { options := {}, input := (Path.ofString "s").resolve [], output := .file "o", interval := .whole 1,
      debounce := .whole 1 }
  have hnew : new? start {} (.file "s") (.file "o") (.whole 1) (.whole 1) true = some first := rfl
  have hstart : Reaches (Spares [] (Path.ofString "o")) first start [] first start := .start
  have hbuilt := hstart.called .initial [] rfl trivial
  have hedited := @Reaches.edits _ _ _ _ _ _ [source "  b"] hbuilt ⟨spares_of_eq (by decide), trivial⟩
  have hpolled := hedited.called (.poll [source "  c"]) [source "  c"] (by decide) ⟨spares_of_eq (by decide), trivial⟩
  refine ⟨first, _, _, _, hnew, hpolled, by decide, ⟨.second 1000000003, by decide⟩, ?_⟩
  exact previous_written hnew hpolled (by decide)

end Watcher

end Offside
