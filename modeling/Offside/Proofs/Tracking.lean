import Offside.Proofs.Watching

/-!
# A watcher loses no update

While every version of the source has a stamp of its own, the stamp that a watcher remembers stands for the version it
compiled last.  So where a call finds that stamp again the output is up to date, and where it finds another one it compiles
(`Watcher.InStep`).
-/
namespace Offside

namespace Watcher

/-! ## Looking at the source -/

theorem source_eq_ok {watcher : Watcher} {w : World} {text : List Char} (h : watcher.input.Sound) :
    watcher.source w = .ok text ↔
      ∃ bytes written, w.files.look w.here watcher.input = .ok (.file bytes written) ∧
        Utf8.readText bytes = .ok text := by
  constructor
  · intro hsource
    unfold source World.read FileTree.find at hsource
    simp only [ofString_inputText h] at hsource
    cases hlook : w.files.look w.here watcher.input with
    | error cause =>
      rw [hlook] at hsource
      cases cause <;> cases hsource
    | ok entry =>
      rw [hlook] at hsource
      cases entry with
      | directory n => cases hsource
      | file bytes written =>
        refine ⟨bytes, written, rfl, ?_⟩
        cases hread : Utf8.readText bytes with
        | error fault => simp [hread, Except.mapError] at hsource
        | ok found => simpa [hread, Except.mapError] using hsource
  · rintro ⟨bytes, written, hfile, hread⟩
    rw [source_of_look h hfile, hread]
    rfl

theorem look_eq_some {watcher : Watcher} {w : World} {stamp : Stamp} :
    watcher.look w = .ok (some stamp) ↔ ∃ entry, w.files.look w.here watcher.input = .ok entry ∧ entry.stamp = stamp := by
  unfold look
  split <;> simp_all

theorem stamp_of_look {watcher : Watcher} {w : World} {stamp : Option Stamp} {entry : Entry}
    (h : watcher.look w = .ok stamp) (hentry : w.files.look w.here watcher.input = .ok entry) :
    stamp = some entry.stamp := by
  rw [look, hentry] at h
  cases h
  rfl

/-! ## Stamps -/

/-- An edit leaves the source as it is, takes it away, or gives it a stamp that it has not had. -/
def Fresh (here : Place) (input : Path) : Conduct := fun past before after =>
  after.files.look here input = before.files.look here input ∨
    ∀ entry, after.files.look here input = .ok entry → ∀ d ∈ before :: past, ∀ old,
      d.files.look here input = .ok old → old.stamp ≠ entry.stamp

theorem fresh_iff {here : Place} {input : Path} {past : List Disk} {before after : Disk} :
    Fresh here input past before after ↔ after.files.look here input = before.files.look here input ∨
      ∀ stamp ∈ (after.files.look here input).toOption.map Entry.stamp, ∀ d ∈ before :: past,
        (d.files.look here input).map Entry.stamp ≠ .ok stamp := by
  refine or_congr_right ⟨fun h stamp hstamp d hd heq => ?_, fun h entry hentry d hd old hold heq => ?_⟩
  · cases hafter : after.files.look here input with
    | error cause => simp [hafter, Except.toOption] at hstamp
    | ok entry =>
      obtain rfl : entry.stamp = stamp := by simpa [hafter, Except.toOption] using hstamp
      cases hold : d.files.look here input with
      | error cause => simp [hold, Except.map] at heq
      | ok old => exact h entry hafter d hd old hold (by simpa [hold, Except.map] using heq)
  · refine h entry.stamp (by simp [hentry, Except.toOption]) d hd ?_
    rw [hold, ← heq]
    rfl

instance (here : Place) (input : Path) (past : List Disk) (before after : Disk) :
    Decidable (Fresh here input past before after) := decidable_of_iff' _ fresh_iff

/-- Others leave the output alone and let it be written, and every version of the source has a stamp of its own. -/
structure Careful (here : Place) (input output : Path) (past : List Disk) (before after : Disk) : Prop where
  spares : Spares here output past before after
  fresh : Fresh here input past before after
  writable : FileTree.Writable here output after.files

/-- If the entry is a text that compiles, the output is its CSS. -/
def Shows (o : Options) (here : Place) (output : Path) (entry : Entry) (d : Disk) : Prop :=
  ∀ bytes written text css, entry = .file bytes written → Utf8.readText bytes = .ok text →
    Offside.compile o text = .ok css → Holds o here output text d

/-- The stamp that is remembered was once that of the source, and the output goes with it. -/
structure InStep (watcher : Watcher) (here : Place) (output : Path) (past : List Disk) (d : Disk) : Prop where
  kept : watcher.Kept here output d
  writable : FileTree.Writable here output d.files
  seen : ∀ stamp, watcher.stamp = some stamp → ∃ earlier ∈ d :: past, ∃ entry,
    earlier.files.look here watcher.input = .ok entry ∧ entry.stamp = stamp
  shows : ∀ entry, d.files.look here watcher.input = .ok entry → watcher.stamp = some entry.stamp →
    Shows watcher.options here output entry d

theorem InStep.edit {watcher : Watcher} {here : Place} {output : Path} {past : List Disk} {before after : Disk}
    (h : watcher.InStep here output past before) (hc : Careful here watcher.input output past before after) :
    watcher.InStep here output (before :: past) after where
  kept text hp := (h.kept text hp).spared hc.spares
  writable := hc.writable
  seen stamp hs := by
    obtain ⟨earlier, hmem, hentry⟩ := h.seen stamp hs
    exact ⟨earlier, List.mem_cons_of_mem after hmem, hentry⟩
  shows entry hentry hs := by
    rcases hc.fresh with hsame | hfresh
    · intro bytes written text css hfile hread hcompile
      rw [hsame] at hentry
      exact (h.shows entry hentry hs bytes written text css hfile hread hcompile).spared hc.spares
    · obtain ⟨earlier, hmem, old, hold, hstamp⟩ := h.seen entry.stamp hs
      exact absurd hstamp (hfresh entry hentry earlier hmem old hold)

theorem InStep.edits {watcher : Watcher} {here : Place} {output : Path} {past : List Disk} {d : Disk} {edits : List Edit}
    (h : watcher.InStep here output past d) (hm : Disk.Meddles (Careful here watcher.input output) here past d edits) :
    watcher.InStep here output (Disk.passed here past d edits) (d.applyAll here edits) :=
  hm.preserves (P := watcher.InStep here output) (fun _ _ _ hc hin => hin.edit hc) h

/-- Nothing has happened since. -/
theorem InStep.again {watcher : Watcher} {here : Place} {output : Path} {past : List Disk} {d : Disk}
    (h : watcher.InStep here output past d) : watcher.InStep here output (d :: past) d where
  kept := h.kept
  writable := h.writable
  seen stamp hs := by
    obtain ⟨earlier, hmem, hentry⟩ := h.seen stamp hs
    exact ⟨earlier, List.mem_cons_of_mem d hmem, hentry⟩
  shows := h.shows

/-! ## Calls -/

/-- A source that is not the output is left alone by replacing the output, unless it is the temporary file. -/
theorem look_of_replaceFile {t after : FileTree} {here : Place} {input target : Path} {bytes : List UInt8}
    {entry found : Entry} (h : t.replaceFile here target bytes = (after, .ok (.ok ())))
    (hne : input.place here ≠ target.place here) (hentry : t.look here input = .ok entry)
    (hfound : after.look here input = .ok found) : found = entry := by
  obtain ⟨-, hbefore⟩ := FileTree.look_eq_ok.1 hentry
  obtain ⟨-, hafter⟩ := FileTree.look_eq_ok.1 hfound
  obtain ⟨-, hgone, hframe⟩ := FileTree.replaceFile_ok h
  -- the temporary file is gone, so a source that is still there is not it
  have htemporary : input.place here ≠ (FileTree.temporaryFor target).place here := by
    intro heq
    rw [heq, hgone] at hafter
    cases hafter
  rcases hframe _ hne htemporary with hsame | ⟨-, hnone, -⟩
  · rw [hsame, hbefore] at hafter
    cases hafter
    rfl
  · rw [hnone] at hbefore
    cases hbefore

/-- A watcher that has looked at its source is in step if its output goes with what it has seen. -/
theorem InStep.of_look {watcher next : Watcher} {w after : World} {output : Path} {past : List Disk}
    (hlook : watcher.look w = .ok next.stamp) (hinput : next.input = watcher.input)
    (hsame : ∀ entry, after.files.look w.here watcher.input = .ok entry →
      w.files.look w.here watcher.input = .ok entry)
    (hkept : next.Kept w.here output after.disk) (hwritable : FileTree.Writable w.here output after.files)
    (hshows : ∀ entry, w.files.look w.here watcher.input = .ok entry →
      Shows next.options w.here output entry after.disk) :
    next.InStep w.here output (w.disk :: past) after.disk ∧
      ∀ entry, after.files.look w.here watcher.input = .ok entry → next.stamp = some entry.stamp := by
  refine ⟨⟨hkept, hwritable, fun stamp hs => ?_, fun entry hentry _ => ?_⟩, fun entry hentry => ?_⟩
  · rw [hinput]
    exact ⟨w.disk, by simp, look_eq_some.1 (hlook.trans (congrArg Except.ok hs))⟩
  · rw [hinput] at hentry
    exact hshows entry (hsame entry hentry)
  · exact stamp_of_look hlook (hsame entry hentry)

/-- **A call keeps the watcher in step**, and one that returns remembers the stamp of the source. -/
theorem Does.inStep {watcher : Watcher} {w : World} {refusal : Option SleepFault} {answer : Answer} {output : String}
    {past : List Disk} (h : watcher.Does w refusal answer) (hsound : watcher.input.Sound) (hout : watcher.output = .file output)
    (hne : watcher.input.place w.here ≠ (Path.ofString output).place w.here)
    (hin : watcher.InStep w.here (Path.ofString output) past w.disk) :
    answer.2.1.InStep w.here (Path.ofString output) (w.disk :: past) answer.1.disk ∧
      ∀ r, answer.2.2 = .ok r → ∀ entry, answer.1.files.look w.here watcher.input = .ok entry →
        answer.2.1.stamp = some entry.stamp := by
  have hkept := h.kept hout hin.kept
  cases h with
  | refused _ => exact ⟨hin.again, fun r hr => by cases hr⟩
  | barred _ => exact ⟨hin.again, fun r hr => by cases hr⟩
  | idle hlook hsame =>
    refine ⟨hin.again, fun r _ entry hentry => ?_⟩
    have hstamp := stamp_of_look hlook hentry
    rcases hsame with hnone | hsame
    · rw [hnone] at hstamp
      cases hstamp
    · exact hsame.symm.trans hstamp
  | @quiet stamp after r hlook hquiet hdisk _ =>
    have hfiles : after.files = w.files := congrArg Disk.files hdisk
    have hstep := @InStep.of_look watcher { watcher with stamp := stamp } w after _ past hlook rfl
      (fun entry hentry => by rw [← hfiles]; exact hentry) hkept (by rw [hfiles]; exact hin.writable) ?_
    · exact ⟨hstep.1, fun _ _ => hstep.2⟩
    · -- a text that compiles and is not written is the one that was compiled last
      intro entry hentry bytes written text css hfile hread hcompile
      rw [hdisk]
      have hsource : watcher.source w = .ok text := (source_eq_ok hsound).2 ⟨bytes, written, hfile ▸ hentry, hread⟩
      exact hin.kept text (hquiet text css hsource hcompile)
  | @writes stamp text css after hlook hsource hcompile hdisk _ =>
    cases hreplace : w.files.replaceFile w.here (Path.ofString output) (Utf8.encode css) with
    | mk files result =>
      have hdone : result = .ok (.ok ()) := by
        have hwritable : (w.files.replaceFile w.here (Path.ofString output) (Utf8.encode css)).2 = .ok (.ok ()) :=
          hin.writable _
        rw [hreplace] at hwritable
        exact hwritable
      subst hdone
      have hwrite : w.write css watcher.output = (w.withFiles files, .ok (.ok ())) := by
        rw [hout, World.write_file hreplace]
      rw [hwrite] at hdisk hkept ⊢
      have hfiles : after.files = files := congrArg Disk.files hdisk
      obtain ⟨bytes, written, hfile, hread⟩ := (source_eq_ok hsound).1 hsource
      have hstep := @InStep.of_look watcher { watcher with stamp := stamp, previous := some text } w after _ past hlook rfl
        (fun entry hentry => by
          rw [hfiles] at hentry
          rw [look_of_replaceFile hreplace hne hfile hentry]
          exact hfile)
        hkept (by rw [hfiles]; exact (FileTree.writable_of_replaceFile hreplace).2) ?_
      · exact ⟨hstep.1, fun _ _ => hstep.2⟩
      · intro entry hentry bytes' written' text' css' hfile' hread' _
        rw [hfile, hfile'] at hentry
        cases hentry
        rw [hread] at hread'
        cases hread'
        exact hkept text rfl

theorem InStep.call {watcher : Watcher} {w : World} {output : String} {past : List Disk}
    (h : watcher.InStep w.here (Path.ofString output) past w.disk) (hsound : watcher.input.Sound)
    (hout : watcher.output = .file output) (hne : watcher.input.place w.here ≠ (Path.ofString output).place w.here)
    (c : Call) (hm : Disk.Meddles (Careful w.here watcher.input (Path.ofString output)) w.here past w.disk
      (watcher.during w c)) :
    (watcher.call c w).2.1.InStep w.here (Path.ofString output)
        (w.disk.applyAll w.here (watcher.during w c) :: Disk.passed w.here past w.disk (watcher.during w c))
        (watcher.call c w).1.disk ∧
      ∀ r, (watcher.call c w).2.2 = .ok r → ∀ entry,
        (watcher.call c w).1.files.look w.here watcher.input = .ok entry →
          (watcher.call c w).2.1.stamp = some entry.stamp := by
  obtain ⟨settled, hdisk, hhere, hdoes⟩ := watcher.does_call w c
  have hin := h.edits hm
  rw [← hdisk] at hin ⊢
  have hcall := hdoes.inStep hsound hout (by rw [hhere]; exact hne) (by rw [hhere]; exact hin)
  rw [hhere] at hcall
  exact hcall

theorem call_eq {watcher : Watcher} {w : World} {c : Call} (r : Option Report) (h : (watcher.call c w).2.2 = .ok r) :
    watcher.call c w = ((watcher.call c w).1, (watcher.call c w).2.1, .ok r) := by
  rw [← h]

/-! ## Whole watches -/

theorem Reaches.inStep {first watcher : Watcher} {start w : World} {past : List Disk} {output : String}
    (h : Reaches (Careful start.here first.input (Path.ofString output)) first start past watcher w)
    (hsound : first.input.Sound) (hout : first.output = .file output)
    (hne : first.input.place start.here ≠ (Path.ofString output).place start.here)
    (hfirst : first.previous = none ∧ first.stamp = none)
    (hwritable : FileTree.Writable start.here (Path.ofString output) start.files) :
    watcher.InStep w.here (Path.ofString output) past w.disk := by
  induction h with
  | start =>
    refine ⟨fun text hp => ?_, hwritable, fun s hs => ?_, fun entry _ hs => ?_⟩
    · rw [hfirst.1] at hp
      cases hp
    · rw [hfirst.2] at hs
      cases hs
    · rw [hfirst.2] at hs
      cases hs
  | @edits past watcher w edits hr hm ih =>
    obtain ⟨hhere, hsame⟩ := hr.same
    rw [← hhere, ← hsame.input] at hm
    exact ih.edits hm
  | @call past watcher w hr c hm ih =>
    obtain ⟨hhere, hsame⟩ := hr.same
    rw [← hhere, ← hsame.input] at hm hne
    rw [← hsame.input] at hsound
    obtain ⟨settled, -, hsettled, hdoes⟩ := watcher.does_call w c
    rw [hdoes.same.1, hsettled]
    exact (ih.call hsound (hsame.output.trans hout) hne c hm).1

/-- **A watcher loses no update.**  The output is not the source, can be written and is left alone by others, and no
version of the source has the stamp of an earlier one.  Then after every call that returns, the output is the CSS of the
source as it is, if that is a file with a text that compiles. -/
theorem call_up_to_date {start w : World} {o : Options} {input : Stream} {output : String} {interval debounce : Seconds}
    {reporting : Bool} {first watcher : Watcher} {past : List Disk}
    (hhere : ∀ name ∈ start.here, Path.Nameable name)
    (hnew : new? start o input (.file output) interval debounce reporting = some first)
    (hne : first.input.place start.here ≠ (Path.ofString output).place start.here)
    (hwritable : FileTree.Writable start.here (Path.ofString output) start.files)
    (h : Reaches (Careful start.here first.input (Path.ofString output)) first start past watcher w) (c : Call)
    (hm : Disk.Meddles (Careful start.here first.input (Path.ofString output)) w.here past w.disk (watcher.during w c))
    {after : World} {next : Watcher} {r : Option Report} (hcall : watcher.call c w = (after, next, .ok r))
    {bytes : List UInt8} {written : Moment} {text css : List Char}
    (hfile : after.files.look after.here first.input = .ok (.file bytes written))
    (hread : Utf8.readText bytes = .ok text) (hcompile : Offside.compile o text = .ok css) :
    ∃ written', after.files.look after.here (Path.ofString output) = .ok (.file (Utf8.encode css) written') := by
  obtain ⟨⟨rfl, hout, -, hfirst⟩, -⟩ := new?_eq_some hnew
  have hsound := sound_of_new? hnew hhere
  have hin := h.inStep hsound hout hne hfirst hwritable
  obtain ⟨hstart, hsame⟩ := h.same
  obtain ⟨settled, -, hsettled, hdoes⟩ := watcher.does_call w c
  have hafter := hdoes.same.1.trans hsettled
  have hnext := hdoes.same.2.trans hsame
  rw [← hstart, ← hsame.input] at hm hne
  rw [← hsame.input] at hsound
  obtain ⟨hstep, hstamp⟩ := hin.call hsound (hsame.output.trans hout) hne c hm
  rw [hcall] at hafter hnext hstep hstamp
  rw [hafter, ← hnext.input] at hfile
  rw [← hnext.options] at hcompile
  have hseen : next.stamp = some (Entry.file bytes written).stamp := by
    refine hstamp r rfl _ ?_
    rw [hsame.input, ← hnext.input]
    exact hfile
  obtain ⟨css', written', hcompile', hlook⟩ := hstep.shows _ hfile hseen bytes written text css rfl hread hcompile
  rw [hcompile] at hcompile'
  cases hcompile'
  rw [hafter]
  exact ⟨written', hlook⟩

/-- A source that is taken away and comes back broken, and is mended while the change settles. -/
theorem call_up_to_date_mended :
    let source (text : String) := Edit.write (Path.ofString "s") (Utf8.encode text.toList) none
    let start : World := { disk := ({} : Disk).apply [] (source "a"), here := [] }
    ∃ first past watcher w after next r css written,
      new? start {} (.file "s") (.file "o") (.whole 1) (.whole 1) true = some first ∧
      Reaches (Careful [] first.input (Path.ofString "o")) first start past watcher w ∧
      watcher.call (.poll [source "b"]) w = (after, next, .ok r) ∧ Offside.compile {} "b".toList = .ok css ∧
      after.files.look after.here (Path.ofString "o") = .ok (.file (Utf8.encode css) written) := by
  intro source start
  let first : Watcher :=
    { options := {}, input := (Path.ofString "s").resolve [], output := .file "o", interval := .whole 1,
      debounce := .whole 1 }
  have hnew : new? start {} (.file "s") (.file "o") (.whole 1) (.whole 1) true = some first := rfl
  have hstart : Reaches (Careful [] first.input (Path.ofString "o")) first start [] first start := .start
  have hbuilt := hstart.called .initial [] rfl trivial
  let edits := [.remove (Path.ofString "s"), source "  b"]
  let watcher := (first.call .initial start).2.1
  let w := (first.call .initial start).1.endure edits
  have hedited : Reaches _ first start _ watcher w := .edits hbuilt
    ⟨⟨spares_of_eq (by decide), by decide, FileTree.writable_of_empty (by decide)⟩,
      ⟨spares_of_eq (by decide), by decide, FileTree.writable_of_empty (by decide)⟩, trivial⟩
  have hduring : watcher.during w (.poll [source "b"]) = [source "b"] := by decide
  let after := (watcher.call (.poll [source "b"]) w).1
  have hcall : watcher.call (.poll [source "b"]) w = (after, _, .ok _) :=
    call_eq (some { input := .file "/s", outcome := .compiled (.file "o") 6 }) (by decide)
  have hfile : after.files.look after.here first.input =
      .ok (.file (Utf8.encode "b".toList) (.second 1000000003)) := by decide
  have hcompile : Offside.compile {} "b".toList = .ok "b \x7b\n\x7d\n".toList := by decide
  obtain ⟨written, hup⟩ := call_up_to_date (by intro name hname; cases hname) hnew (by decide)
    (FileTree.writable_of_empty (by decide)) hedited (.poll [source "b"]) (by
      rw [hduring]
      exact ⟨⟨spares_of_eq (by decide), by decide, FileTree.writable_of_empty (by decide)⟩, trivial⟩)
    hcall hfile (by decide) hcompile
  exact ⟨first, _, watcher, w, _, _, _, _, _, hnew, hedited, hcall, hcompile, hup⟩

end Watcher

end Offside
