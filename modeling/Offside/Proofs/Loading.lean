import Mathlib.Data.List.Basic
import Offside.Config.Load

/-!
# Where settings come from

The search for a project file tries one path after the other, up to the first at which there is a file (`Access.Tries`).
What is loaded depends only on that path and what is read there (`Access.Loads`).  All this holds of whatever the file system
and the reader of the format answer.  If the reader gives a value or says that the rules of the format are broken, and nothing
else, a load that fails does so with a fault of the configuration, but for the reasons of `Access.Escapes`: the file system
refuses an answer, the bytes are no text, a key cannot be shown, or a number is too large.
-/
namespace Offside.Config.Access

variable {a : Access} {path directory : Option Path} {paths : List Path} {p : Path}

/-! ## The search -/

/-- The paths at which a project file is looked for, if the directory to search is known. -/
def candidates (a : Access) (path directory : Option Path) : Except FileCause (List Path) :=
  match path with
  | some path => .ok [path]
  | none => (directory.elim a.here .ok).map fun directory => usualNames.map directory.child

/-- The search comes to `p`, as there is no file at the paths before it. -/
def Tries (a : Access) (paths : List Path) (p : Path) : Prop :=
  ∃ before after, paths = before ++ p :: after ∧ ∀ q ∈ before, a.isFile q = .ok false

theorem tries_cons {q : Path} : a.Tries (q :: paths) p ↔ p = q ∨ a.isFile q = .ok false ∧ a.Tries paths p := by
  constructor
  · rintro ⟨before, after, h, hbefore⟩
    cases before with
    | nil =>
      cases h
      exact .inl rfl
    | cons b before =>
      cases h
      exact .inr ⟨hbefore _ (by simp), before, after, rfl, fun x hx => hbefore x (List.mem_cons_of_mem _ hx)⟩
  · rintro (rfl | ⟨hq, before, after, rfl, hbefore⟩)
    · exact ⟨[], paths, rfl, by simp⟩
    · exact ⟨q :: before, after, rfl, List.forall_mem_cons.2 ⟨hq, hbefore⟩⟩

theorem not_tries_nil : ¬a.Tries [] p := by
  rintro ⟨before, after, h, -⟩
  simp at h

/-- **A search ends at a file, at a path that cannot be looked at, or with nothing.** -/
theorem search_cases (a : Access) : ∀ paths : List Path,
    (∃ p, a.Tries paths p ∧ a.isFile p = .ok true) ∨ (∃ p fault, a.Tries paths p ∧ a.isFile p = .error fault) ∨
      ∀ p ∈ paths, a.isFile p = .ok false
  | [] => .inr (.inr (by simp))
  | p :: paths => by
    cases hp : a.isFile p with
    | error fault => exact .inr (.inl ⟨p, fault, tries_cons.2 (.inl rfl), hp⟩)
    | ok there =>
      cases there with
      | true => exact .inl ⟨p, tries_cons.2 (.inl rfl), hp⟩
      | false =>
        obtain ⟨q, hq, hfile⟩ | ⟨q, fault, hq, hfault⟩ | hall := search_cases a paths
        · exact .inl ⟨q, tries_cons.2 (.inr ⟨hp, hq⟩), hfile⟩
        · exact .inr (.inl ⟨q, fault, tries_cons.2 (.inr ⟨hp, hq⟩), hfault⟩)
        · exact .inr (.inr (List.forall_mem_cons.2 ⟨hp, hall⟩))

/-- The answer at the path at which a search ends. -/
def found (a : Access) (p : Path) : Except FileFault (Option Path) :=
  (a.isFile p).map fun there => if there then some p else none

theorem findIn_of_tries {directory : Path} (hp : a.isFile p ≠ .ok false) : ∀ {names : List Name},
    a.Tries (names.map directory.child) p → a.findIn directory names = a.found p
  | [], h => (not_tries_nil h).elim
  | name :: names, h => by
    rw [findIn]
    obtain rfl | ⟨hnone, hnext⟩ := tries_cons.1 h
    · unfold found
      split
      · rename_i hfault
        rw [hfault]
        rfl
      · rename_i htrue
        rw [htrue]
        rfl
      · contradiction
    · rw [hnone]
      exact findIn_of_tries hp hnext

theorem findIn_of_none {directory : Path} : ∀ {names : List Name},
    (∀ p ∈ names.map directory.child, a.isFile p = .ok false) → a.findIn directory names = .ok none
  | [], _ => rfl
  | name :: names, h => by
    obtain ⟨hname, hnames⟩ := List.forall_mem_cons.1 h
    rw [findIn, hname]
    exact findIn_of_none hnames

theorem choose_of_error {cause : FileCause} (h : a.candidates path directory = .error cause) :
    a.choose path directory = .error (.nowhere cause) := by
  cases path with
  | some path => cases h
  | none =>
    rw [choose]
    cases hhere : directory.elim a.here .ok with
    | error other => simpa [candidates, hhere, Except.map] using h
    | ok here => simp [candidates, hhere, Except.map] at h

theorem candidates_none (h : a.candidates none directory = .ok paths) :
    ∃ here, directory.elim a.here .ok = .ok here ∧ usualNames.map here.child = paths := by
  cases hhere : directory.elim a.here .ok with
  | error cause => simp [candidates, hhere, Except.map] at h
  | ok here => exact ⟨here, rfl, by simpa [candidates, hhere, Except.map] using h⟩

theorem choose_of_tries (hpaths : a.candidates path directory = .ok paths) (h : a.Tries paths p)
    (hp : a.isFile p ≠ .ok false) : a.choose path directory = (a.found p).mapError .file := by
  cases path with
  | none =>
    obtain ⟨here, hhere, rfl⟩ := candidates_none hpaths
    simp only [choose, hhere, findIn_of_tries hp h]
  | some path =>
    cases hpaths
    obtain rfl | ⟨-, hnil⟩ := tries_cons.1 h
    · rw [choose, found]
      cases hfile : a.isFile p with
      | error fault => simp only [Except.map, Except.mapError]
      | ok there =>
        cases there with
        | true => simp only [Except.map, Except.mapError, if_true]
        | false => contradiction
    · exact (not_tries_nil hnil).elim

theorem choose_of_none (hpaths : a.candidates path directory = .ok paths) (h : ∀ p ∈ paths, a.isFile p = .ok false) :
    a.choose path directory = match path with
      | some path => .error (.notFound path)
      | none => .ok none := by
  cases path with
  | none =>
    obtain ⟨here, hhere, rfl⟩ := candidates_none hpaths
    simp only [choose, hhere, findIn_of_none h, Except.mapError]
  | some path =>
    cases hpaths
    simp only [choose, h path (List.mem_singleton_self path)]

/-! ## The answer -/

/-- What the file at `p` gives, by the stage at which it is decided. -/
inductive Reads (a : Access) (p : Path) : Except LoadFault Loaded → Prop
  | unopened {fault : FileFault} (h : a.bytes p = .error fault) : Reads a p (.error (.file fault))
  | undecodable {bytes : List UInt8} {fault : Utf8.DecodeFault} (hbytes : a.bytes p = .ok bytes)
      (h : Utf8.readText bytes = .error fault) : Reads a p (.error (.decode fault))
  | flawed {bytes : List UInt8} {text : List Char} {flaw : Flaw} (hbytes : a.bytes p = .ok bytes)
      (htext : Utf8.readText bytes = .ok text) (h : a.value text = .error flaw) : Reads a p (.error (.ofFlaw p flaw))
  | refused {bytes : List UInt8} {text : List Char} {value : Value} {refusal : Refusal} (hbytes : a.bytes p = .ok bytes)
      (htext : Utf8.readText bytes = .ok text) (hvalue : a.value text = .ok value)
      (h : Settings.ofValue value = .error refusal) : Reads a p (.error (.refused refusal))
  | loaded {bytes : List UInt8} {text : List Char} {value : Value} {settings : Settings} (hbytes : a.bytes p = .ok bytes)
      (htext : Utf8.readText bytes = .ok text) (hvalue : a.value text = .ok value)
      (h : Settings.ofValue value = .ok settings) : Reads a p (.ok { settings := settings, source := some p })

/-- What a load gives: what the first file gives, or else the usual settings, unless a file was asked for. -/
inductive Loads (a : Access) (path directory : Option Path) : Except LoadFault Loaded → Prop
  | nowhere {cause : FileCause} (h : a.candidates path directory = .error cause) :
      Loads a path directory (.error (.nowhere cause))
  | unseen {paths : List Path} {p : Path} {fault : FileFault} (hpaths : a.candidates path directory = .ok paths)
      (hp : a.Tries paths p) (h : a.isFile p = .error fault) : Loads a path directory (.error (.file fault))
  | file {paths : List Path} {p : Path} {answer : Except LoadFault Loaded}
      (hpaths : a.candidates path directory = .ok paths) (hp : a.Tries paths p) (hfile : a.isFile p = .ok true)
      (h : a.Reads p answer) : Loads a path directory answer
  | notFound {p : Path} (hpath : path = some p) (h : a.isFile p = .ok false) :
      Loads a path directory (.error (.notFound p))
  | usual {paths : List Path} (hpath : path = none) (hpaths : a.candidates path directory = .ok paths)
      (h : ∀ p ∈ paths, a.isFile p = .ok false) : Loads a path directory (.ok {})

theorem reads_read (a : Access) (p : Path) : a.Reads p (a.read p).2 := by
  unfold read
  split
  · rename_i hfault
    exact .unopened hfault
  · rename_i hbytes
    split
    · rename_i hfault
      exact .undecodable hbytes hfault
    · rename_i htext
      split
      · rename_i hflaw
        exact .flawed hbytes htext hflaw
      · rename_i hvalue
        split
        · rename_i hrefusal
          exact .refused hbytes htext hvalue hrefusal
        · rename_i hsettings
          exact .loaded hbytes htext hvalue hsettings

theorem load_of_error {fault : LoadFault} (h : a.choose path directory = .error fault) :
    (a.load path directory).2 = .error fault := by rw [load, h]

theorem load_of_file (hpaths : a.candidates path directory = .ok paths) (hp : a.Tries paths p)
    (hfile : a.isFile p = .ok true) : a.load path directory = a.read p := by
  have hchoose : a.choose path directory = .ok (some p) := by
    rw [choose_of_tries hpaths hp (by simp [hfile]), found, hfile]
    rfl
  rw [load, hchoose]

theorem load_of_unseen {fault : FileFault} (hpaths : a.candidates path directory = .ok paths) (hp : a.Tries paths p)
    (hfault : a.isFile p = .error fault) : (a.load path directory).2 = .error (.file fault) := by
  refine load_of_error ?_
  rw [choose_of_tries hpaths hp (by simp [hfault]), found, hfault]
  rfl

theorem loads_load (a : Access) (path directory : Option Path) : a.Loads path directory (a.load path directory).2 := by
  cases hpaths : a.candidates path directory with
  | error cause =>
    rw [load_of_error (choose_of_error hpaths)]
    exact .nowhere hpaths
  | ok paths =>
    obtain ⟨p, hp, hfile⟩ | ⟨p, fault, hp, hfault⟩ | hnone := a.search_cases paths
    · rw [load_of_file hpaths hp hfile]
      exact .file hpaths hp hfile (a.reads_read p)
    · rw [load_of_unseen hpaths hp hfault]
      exact .unseen hpaths hp hfault
    · have hchoose := choose_of_none hpaths hnone
      cases path with
      | none =>
        have hload : (a.load none directory).2 = .ok {} := by rw [load, hchoose]
        rw [hload]
        exact .usual rfl hpaths hnone
      | some path =>
        cases hpaths
        rw [load_of_error hchoose]
        exact .notFound rfl (hnone path (List.mem_singleton_self path))

/-! ## Faults that are none of the configuration -/

/-- The reader of the format gives a value or says that the rules of the format are broken. -/
def Regular (a : Access) : Prop := ∀ text flaw, a.value text = .error flaw → flaw = .malformed

/-- Why the file at `p` gives a fault that is none of the configuration. -/
inductive Spoils (a : Access) (p : Path) : Prop
  | unopened {fault : FileFault} (h : a.bytes p = .error fault) : Spoils a p
  | undecodable {bytes : List UInt8} {fault : Utf8.DecodeFault} (hbytes : a.bytes p = .ok bytes)
      (h : Utf8.readText bytes = .error fault) : Spoils a p
  | unusable {bytes : List UInt8} {text : List Char} {value : Value} {refusal : Refusal} (hbytes : a.bytes p = .ok bytes)
      (htext : Utf8.readText bytes = .ok text) (hvalue : a.value text = .ok value)
      (h : Settings.ofValue value = .error refusal)
      (hrefusal : refusal ∈ [.keyTooLong, .secondsTooLarge, .indentNoMemory, .indentTooLarge]) : Spoils a p

/-- Why a load fails with a fault that is none of the configuration. -/
inductive Escapes (a : Access) (path directory : Option Path) : Prop
  | nowhere {cause : FileCause} (h : a.candidates path directory = .error cause) : Escapes a path directory
  | unseen {paths : List Path} {p : Path} {fault : FileFault} (hpaths : a.candidates path directory = .ok paths)
      (hp : a.Tries paths p) (h : a.isFile p = .error fault) : Escapes a path directory
  | spoilt {paths : List Path} {p : Path} (hpaths : a.candidates path directory = .ok paths) (hp : a.Tries paths p)
      (hfile : a.isFile p = .ok true) (h : a.Spoils p) : Escapes a path directory

theorem isConfigFault_refused (refusal : Refusal) : (LoadFault.refused refusal).isConfigFault = false ↔
    refusal ∈ [.keyTooLong, .secondsTooLarge, .indentNoMemory, .indentTooLarge] := by
  cases refusal <;> simp [LoadFault.isConfigFault, Refusal.isConfigFault]

theorem Reads.spoils (hregular : a.Regular) {fault : LoadFault} (h : a.Reads p (.error fault))
    (hfault : fault.isConfigFault = false) : a.Spoils p := by
  cases h with
  | unopened hopen => exact .unopened hopen
  | undecodable hbytes hread => exact .undecodable hbytes hread
  | flawed _ _ hflaw =>
    cases hregular _ _ hflaw
    cases hfault
  | refused hbytes htext hvalue hrefusal =>
    exact .unusable hbytes htext hvalue hrefusal ((isConfigFault_refused _).1 hfault)

theorem Spoils.fault (h : a.Spoils p) : ∃ fault, (a.read p).2 = .error fault ∧ fault.isConfigFault = false := by
  cases h with
  | @unopened fault hopen => exact ⟨.file fault, by simp only [read, hopen], rfl⟩
  | @undecodable bytes fault hbytes hread => exact ⟨.decode fault, by simp only [read, hbytes, hread], rfl⟩
  | @unusable bytes text value refusal hbytes htext hvalue h hrefusal =>
    exact ⟨.refused refusal, by simp only [read, hbytes, htext, hvalue, h], (isConfigFault_refused refusal).2 hrefusal⟩

theorem Loads.escapes (hregular : a.Regular) {fault : LoadFault} (h : a.Loads path directory (.error fault))
    (hfault : fault.isConfigFault = false) : a.Escapes path directory := by
  cases h with
  | nowhere hnowhere => exact .nowhere hnowhere
  | unseen hpaths hp hunseen => exact .unseen hpaths hp hunseen
  | file hpaths hp hfile hreads => exact .spoilt hpaths hp hfile (hreads.spoils hregular hfault)
  | notFound _ _ => cases hfault

theorem Escapes.fault (h : a.Escapes path directory) :
    ∃ fault, (a.load path directory).2 = .error fault ∧ fault.isConfigFault = false := by
  cases h with
  | @nowhere cause hnowhere => exact ⟨.nowhere cause, load_of_error (choose_of_error hnowhere), rfl⟩
  | @unseen paths p fault hpaths hp hunseen => exact ⟨.file fault, load_of_unseen hpaths hp hunseen, rfl⟩
  | spoilt hpaths hp hfile hspoils =>
    rw [load_of_file hpaths hp hfile]
    exact hspoils.fault

/-- **A load gives what the file it uses gives, and fails with a fault of the configuration if it fails**, unless the file
system refuses an answer, the bytes are no text, a key cannot be shown or a number is too large.  The file is the one asked
for, or the first under a usual name. -/
theorem load_faults (a : Access) (hregular : a.Regular) (path directory : Option Path) :
    a.Loads path directory (a.load path directory).2 ∧
      ((∃ fault, (a.load path directory).2 = .error fault ∧ fault.isConfigFault = false) ↔ a.Escapes path directory) := by
  have hloads := a.loads_load path directory
  refine ⟨hloads, ?_, Escapes.fault⟩
  rintro ⟨fault, hfault, hconfig⟩
  rw [hfault] at hloads
  exact hloads.escapes hregular hconfig

/-- The second of the usual names is a file, and nobody may open it. -/
theorem load_faults_denied :
    let hidden := Path.ofString ".boa.yaml"
    let a : Access :=
      { here := .ok ⟨0, []⟩, isFile := fun p => .ok (p == hidden), bytes := fun p => .error { cause := .denied, path := p }
        value := fun _ => .error .malformed }
    a.Regular ∧ ∃ fault, (a.load none none).2 = .error fault ∧ fault.isConfigFault = false := by
  intro hidden a
  have hregular : a.Regular := by
    intro text flaw h
    cases h
    rfl
  refine ⟨hregular, (load_faults a hregular none none).2.2 ?_⟩
  have htries : a.Tries (usualNames.map (Path.child ⟨0, []⟩)) hidden := ⟨[Path.ofString "boa.yaml"], [], by decide, by decide⟩
  exact .spoilt rfl htries rfl (.unopened rfl)

end Access

/-- A project file whose last byte is none of a text. -/
theorem load_undecodable :
    let bytes : List UInt8 := [0x69, 0x6e, 0x64, 0x65, 0x6e, 0x74, 0x3a, 0xff]
    let w : World := { disk := ({} : Disk).apply [] (.write (Path.ofString "boa.yaml") bytes none), here := [] }
    ∃ fault, (load w none none).2 = .error (.decode fault) ∧ (LoadFault.decode fault).isConfigFault = false := by
  intro bytes w
  exact ⟨_, rfl, rfl⟩

end Offside.Config
