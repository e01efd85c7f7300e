import Offside.File.Path
import Offside.Text.Quoted

/-!
# File trees

The files a run can see, as a value.  A tree maps places (the names on the way from
the root) to entries, and offers what an operating system offers: look at an entry,
create a directory, write, rename and remove a file.  A failing operation says what
stood in its way and changes nothing.
-/
namespace Offside

abbrev Place := List Name

/-- When a file was last written: at a second its writer chose, or by the run itself, which
numbers what it writes. -/
inductive Moment
  | second (n : Int)
  | serial (n : Nat)
deriving DecidableEq, Repr

inductive Entry
  | file (bytes : List UInt8) (written : Moment)
  | directory (created : Nat)
deriving DecidableEq, Repr

structure FileTree where
  entries : List (Place × Entry) := []
  /-- How many entries the run has made. -/
  serial : Nat := 0
deriving DecidableEq, Repr

/-! ## What can go wrong -/

inductive FileCause
  | missing
  | denied
  | busy
  | existing
  | notDirectory
  | isDirectory
  | nameTooLong
deriving DecidableEq, Repr

namespace FileCause

def number : FileCause → Nat
  | missing => 2
  | denied => 13
  | busy => 16
  | existing => 17
  | notDirectory => 20
  | isDirectory => 21
  | nameTooLong => 36

def text : FileCause → String
  | missing => "No such file or directory"
  | denied => "Permission denied"
  | busy => "Device or resource busy"
  | existing => "File exists"
  | notDirectory => "Not a directory"
  | isDirectory => "Is a directory"
  | nameTooLong => "File name too long"

def message (cause : FileCause) : String := "[Errno " ++ toString cause.number ++ "] " ++ cause.text

end FileCause

structure FileFault where
  cause : FileCause
  path : Path
  target : Option Path := none
deriving DecidableEq, Repr

def quotePath (p : Path) : String := String.ofList (Quoted.encode p.text)

def FileFault.message (f : FileFault) : String :=
  f.cause.message ++ ": " ++ quotePath f.path ++
    (match f.target with
     | some target => " -> " ++ quotePath target
     | none => "")

namespace FileTree

/-! ## Entries -/

theorem lookup_filter_ne {place q : Place} (entries : List (Place × Entry)) (h : q ≠ place) :
    (entries.filter (·.1 != place)).lookup q = entries.lookup q := by
  induction entries with
  | nil => rfl
  | cons e es ih =>
    by_cases he : e.1 = place
    · have hq : (q == e.1) = false := by rw [he]; simpa using h
      rw [List.filter_cons_of_neg (by simpa using he), ih, List.lookup_cons, hq]
    · rw [List.filter_cons_of_pos (by simpa using he), List.lookup_cons, List.lookup_cons, ih]

theorem lookup_filter_self {place : Place} (entries : List (Place × Entry)) :
    (entries.filter (·.1 != place)).lookup place = none := by
  induction entries with
  | nil => rfl
  | cons e es ih =>
    by_cases he : e.1 = place
    · rw [List.filter_cons_of_neg (by simpa using he), ih]
    · have hq : (place == e.1) = false := by simpa using fun h => he h.symm
      rw [List.filter_cons_of_pos (by simpa using he), List.lookup_cons, hq, ih]

/-- The root is always a directory. -/
def get? (t : FileTree) (place : Place) : Option Entry :=
  if place.isEmpty then some (.directory 0) else t.entries.lookup place

def put (t : FileTree) (place : Place) (entry : Entry) : FileTree :=
  { t with entries := (place, entry) :: t.entries.filter (·.1 != place) }

def erase (t : FileTree) (place : Place) : FileTree :=
  { t with entries := t.entries.filter (·.1 != place) }

theorem get?_put (t : FileTree) {place : Place} (entry : Entry) (h : place ≠ []) (q : Place) :
    (t.put place entry).get? q = if q = place then some entry else t.get? q := by
  by_cases hq : q = place
  · subst hq
    simp [get?, put, h]
  · rw [if_neg hq]
    unfold get? put
    split
    · rfl
    · rw [List.lookup_cons]
      have hne : (q == place) = false := by simpa using hq
      rw [hne]
      exact lookup_filter_ne t.entries hq

theorem get?_erase (t : FileTree) {place : Place} (h : place ≠ []) (q : Place) :
    (t.erase place).get? q = if q = place then none else t.get? q := by
  by_cases hq : q = place
  · subst hq
    simp [get?, erase, h, lookup_filter_self]
  · rw [if_neg hq]
    unfold get? erase
    split
    · rfl
    · exact lookup_filter_ne t.entries hq

def eraseAll (t : FileTree) (place : Place) : FileTree :=
  { t with entries := t.entries.filter fun e => !place.isPrefixOf e.1 }

def nameLimit : Nat := 255

/-- Follows names from a place.  Every place but the last one has to be a directory. -/
def walk (t : FileTree) : Place → List Name → Except FileCause Place
  | place, [] => .ok place
  | place, name :: names =>
    match t.get? place with
    | none => .error .missing
    | some (.file _ _) => .error .notDirectory
    | some (.directory _) =>
      if name == Path.upward then t.walk place.dropLast names
      else if utf8Length name > nameLimit then .error .nameTooLong
      else t.walk (place ++ [name]) names

def pathLimit : Nat := 4095

/-- The place a path leads to from the directory `here`; nothing need be there. -/
def locate (t : FileTree) (here : Place) (p : Path) : Except FileCause Place :=
  if utf8Length p.text > pathLimit then .error .nameTooLong
  else t.walk (if p.root = 0 then here else []) p.names

def look (t : FileTree) (here : Place) (p : Path) : Except FileCause Entry :=
  match t.locate here p with
  | .error cause => .error cause
  | .ok place =>
    match t.get? place with
    | none => .error .missing
    | some entry => .ok entry

/-- The entry a path leads to, or none where there is no way to it. -/
def find (t : FileTree) (here : Place) (p : Path) : Except FileFault (Option Entry) :=
  match t.look here p with
  | .ok entry => .ok (some entry)
  | .error .missing => .ok none
  | .error .notDirectory => .ok none
  | .error cause => .error { cause := cause, path := p }

/-! ## Changes -/

def makeDirectory (t : FileTree) (here : Place) (p : Path) : Except FileCause FileTree :=
  match t.locate here p with
  | .error cause => .error cause
  | .ok place =>
    match t.get? place with
    | some _ => .error .existing
    | none =>
      .ok { t.put place (.directory t.serial) with serial := t.serial + 1 }

def haveDirectory (t : FileTree) (here : Place) (p : Path) : Except FileCause FileTree :=
  match t.makeDirectory here p with
  | .ok t => .ok t
  | .error cause =>
    match t.look here p with
    | .ok (.directory _) => .ok t
    | _ => .error cause

/-- Makes a directory and those on the way to it.  The names come in reverse.  Directories made
before a failure stay. -/
def haveAllDirectories (t : FileTree) (here : Place) (root : Nat) :
    List Name → FileTree × Except FileFault Unit
  | [] => (t, .ok ())
  | name :: outer =>
    let p : Path := { root := root, names := (name :: outer).reverse }
    let fail (cause : FileCause) : Except FileFault Unit := .error { cause := cause, path := p }
    match t.haveDirectory here p with
    | .ok t => (t, .ok ())
    | .error .missing =>
      match haveAllDirectories t here root outer with
      | (t, .error fault) => (t, .error fault)
      | (t, .ok ()) =>
        match t.haveDirectory here p with
        | .ok t => (t, .ok ())
        | .error cause => (t, fail cause)
    | .error cause => (t, fail cause)

def makeDirectories (t : FileTree) (here : Place) (p : Path) : FileTree × Except FileFault Unit :=
  t.haveAllDirectories here p.root p.names.reverse

def writeFile (t : FileTree) (here : Place) (p : Path) (bytes : List UInt8) : Except FileCause FileTree :=
  match t.locate here p with
  | .error cause => .error cause
  | .ok place =>
    match t.get? place with
    | some (.directory _) => .error .isDirectory
    | _ => .ok { t.put place (.file bytes (.serial t.serial)) with serial := t.serial + 1 }

def removeFile (t : FileTree) (here : Place) (p : Path) : Except FileCause FileTree :=
  match t.locate here p with
  | .error cause => .error cause
  | .ok place =>
    match t.get? place with
    | none => .error .missing
    | some (.directory _) => .error .isDirectory
    | some (.file _ _) => .ok (t.erase place)

/-- Moves a file, over an old one if there is one.  A path that ends in `..` cannot be replaced. -/
def moveFile (t : FileTree) (here : Place) (p target : Path) : Except FileCause FileTree :=
  match t.locate here p, t.locate here target with
  | .error cause, _ => .error cause
  | _, .error cause => .error cause
  | .ok source, .ok place =>
    if target.name == Path.upward then .error .busy
    else
      match t.get? source, t.get? place with
      | some (.file _ _), some (.directory _) => .error .isDirectory
      | some (.file bytes written), _ => .ok ((t.erase source).put place (.file bytes written))
      | some (.directory _), _ => .error .isDirectory
      | none, _ => .error .missing

end FileTree

end Offside
