import Offside.Proofs.Watching

/-!
# What ends a watch

A look at a source fails in three ways only, other than by its being missing: the path is too long, or on the way there
is a file in a directory's place, or a name that no directory can hold (`FileTree.Bars`).  A call of a watcher fails
exactly if its look does, or if the clock does not let it sleep.  A watch is one call after another
(`Watcher.cycle_cons`), so whatever else becomes of the source, it goes on (`Watcher.Ends`).
-/
namespace Offside

/-! ## The way to an entry -/

/-- Why no way goes on from an entry to `name`. -/
inductive Entry.Stops (name : Name) : Entry → FileCause → Prop
  | file (bytes : List UInt8) (written : Moment) : Stops name (.file bytes written) .notDirectory
  | directory (n : Nat) (hup : name ≠ Path.upward) (hlong : FileTree.nameLimit < utf8Length name) :
    Stops name (.directory n) .nameTooLong

namespace FileTree

/-- The path `p` is too long, or on the way there is an entry from which the way does not go on. -/
inductive Bars (t : FileTree) (here : Place) (p : Path) : FileCause → Prop
  | long (h : ¬p.Short) : Bars t here p .nameTooLong
  | stopped {outer rest : List Name} {name : Name} {entry : Entry} {cause : FileCause} (hshort : p.Short)
      (hp : p.names = outer ++ name :: rest) (hentry : t.look here ⟨p.root, outer⟩ = .ok entry)
      (hstops : entry.Stops name cause) : Bars t here p cause

end FileTree

namespace World

/-- `after` comes later in a run: the journal has grown, and the clock is the same. -/
structure Grows (w after : World) : Prop where
  journal : w.journal <+: after.journal
  clock : after.sleepFault? = w.sleepFault?

theorem Grows.refl (w : World) : w.Grows w := ⟨List.prefix_rfl, rfl⟩

theorem Grows.trans {a b c : World} (h : a.Grows b) (h' : b.Grows c) : a.Grows c :=
  ⟨h.journal.trans h'.journal, h'.clock.trans h.clock⟩

theorem endure_grows (w : World) (edits : List Edit) : w.Grows (w.endure edits) := ⟨List.prefix_rfl, rfl⟩

theorem tell_grows (w : World) (event : Event) : w.Grows (w.tell event) := ⟨List.prefix_append _ _, rfl⟩

theorem sleep_eq_ok {w after : World} {time : Seconds} (h : w.sleep time = .ok after) : after = w.tell (.slept time) := by
  unfold sleep at h
  split at h
  · cases h
  · cases h
    rfl

theorem noteRead_grows (w : World) (label : String) (fault : ReadFault) : w.Grows (w.noteRead label fault) := by
  unfold noteRead
  split <;> exact w.tell_grows _

theorem compile_grows (w : World) (o : Options) (source : List Char) : w.Grows (w.compile o source).1 := by
  unfold compile
  split
  · exact .refl w
  · exact (w.tell_grows _).trans (tell_grows _ _)

theorem write_grows (w : World) (css : List Char) (output : Stream) : w.Grows (w.write css output).1 := by
  cases output <;> exact ⟨List.prefix_rfl, rfl⟩

theorem buildText_grows (w : World) (o : Options) (input output : Stream) (source : List Char) :
    w.Grows (w.buildText o input output source).1 := by
  have hcompile := w.compile_grows o source
  unfold buildText
  split
  · rename_i hfault
    rw [hfault] at hcompile
    exact hcompile.trans (tell_grows _ _)
  · rename_i noted css hcss
    rw [hcss] at hcompile
    have hwrite := hcompile.trans (noted.write_grows css output)
    simp only
    split <;> rename_i hsent <;> rw [hsent] at hwrite
    · exact hwrite
    · exact hwrite.trans (tell_grows _ _)
    · exact hwrite.trans (tell_grows _ _)

/-- How often the run has slept. -/
def slept (w : World) : Nat := w.journal.countP fun event => match event with
  | .slept _ => true
  | _ => false

end World

namespace Watcher

/-! ## Calls -/

theorem Does.of_look {watcher : Watcher} {w : World} {answer : Answer} {fault : FileFault}
    (h : watcher.Does w none answer) (hlook : watcher.look w = .error fault) :
    answer = (w, watcher, .error (.file fault)) := by
  cases h with
  | refused hrefused => cases hrefused
  | barred hfault =>
    rw [hlook] at hfault
    cases hfault
    rfl
  | idle hok _ => rw [hlook] at hok; cases hok
  | quiet hok _ _ _ => rw [hlook] at hok; cases hok
  | writes hok _ _ _ _ => rw [hlook] at hok; cases hok

theorem tellReport_grows (watcher : Watcher) (w : World) (r : Report) : w.Grows (watcher.tellReport w r) := by
  unfold tellReport
  split
  · exact w.tell_grows _
  · exact .refl w

theorem compile_grows (watcher : Watcher) (w : World) : w.Grows (watcher.compile w).1 := by
  unfold compile
  simp only [read_eq]
  cases watcher.source w with
  | error fault =>
    cases fault with
    | notFound path => exact w.tell_grows _
    | file fault => exact (w.noteRead_grows _ _).trans (tellReport_grows _ _ _)
    | decode fault => exact (w.noteRead_grows _ _).trans (tellReport_grows _ _ _)
  | ok text =>
    simp only
    split
    · exact w.tell_grows _
    · have hbuild := w.buildText_grows watcher.options (.file watcher.inputText) watcher.output text
      rw [World.build]
      split <;> rename_i hanswer <;> rw [hanswer] at hbuild
      · exact hbuild
      · exact hbuild.trans (tellReport_grows _ _ _)

theorem initial_grows (watcher : Watcher) (w : World) : w.Grows (watcher.initial w).1 := by
  unfold initial
  split
  · exact .refl w
  · exact compile_grows _ w

theorem call_grows (watcher : Watcher) (w : World) (c : Call) : w.Grows (watcher.call c w).1 := by
  cases c with
  | initial => exact watcher.initial_grows w
  | poll meanwhile =>
    rw [call, poll]
    split
    · exact .refl w
    · exact .refl w
    · split
      · exact watcher.initial_grows w
      · split
        · exact .refl w
        · rename_i slept hslept
          rw [World.sleep_eq_ok hslept]
          exact ((w.tell_grows _).trans (World.endure_grows _ _)).trans (watcher.initial_grows _)

theorem Reaches.clock {conduct : Conduct} {first watcher : Watcher} {start w : World} {past : List Disk}
    (h : Reaches conduct first start past watcher w) : w.sleepFault? = start.sleepFault? := by
  induction h with
  | start => rfl
  | edits _ _ ih => exact ih
  | @call past watcher w _ c _ ih => exact (watcher.call_grows w c).clock.trans ih

/-- How a watch through `sleeps` may end: as it is asked to, after so many sleeps, or because the way to its source is
barred, or because the clock does not sleep for one of its times. -/
inductive Ends (task : Watcher) (start : World) (sleeps : List (List Edit)) (after : World) :
    Ending → Except Escape Unit → Prop
  | stop (h : start.slept + sleeps.length ≤ after.slept) : Ends task start sleeps after .stop (.ok ())
  | interrupt (h : start.slept + sleeps.length ≤ after.slept) :
    Ends task start sleeps after .interrupt (.error .interrupt)
  | barred {ending : Ending} {cause : FileCause} (h : after.files.Bars after.here task.input cause) :
    Ends task start sleeps after ending (.error (.file { cause := cause, path := task.input }))
  | refused {ending : Ending} {time : Seconds} {fault : SleepFault} (htime : time ∈ [task.interval, task.debounce])
      (h : start.sleepFault? time = some fault) : Ends task start sleeps after ending (.error (.sleep fault))

theorem Ends.later {task next : Watcher} {start middle after : World} {sleeps rest : List (List Edit)} {ending : Ending}
    {answer : Except Escape Unit} (h : Ends next middle rest after ending answer) (hsame : next.SameTask task)
    (hgrows : start.Grows middle) (hslept : start.slept + sleeps.length ≤ middle.slept + rest.length) :
    Ends task start sleeps after ending answer := by
  cases h with
  | stop h => exact .stop (Nat.le_trans hslept h)
  | interrupt h => exact .interrupt (Nat.le_trans hslept h)
  | barred h =>
    rw [hsame.input] at h ⊢
    exact .barred h
  | refused htime h =>
    rw [hsame.interval, hsame.debounce] at htime
    rw [hgrows.clock] at h
    exact .refused htime h

end Watcher

end Offside
