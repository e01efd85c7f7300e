import Offside.Text.Digit
import Offside.Text.Quoted

/-!
# Command-line words

How the words of a command line fall into options, their values and positional
words.  A grammar lists the options and says what positional words it takes.

* A word that begins with a dash is an option; its name may be cut short as long as
  only one name begins that way.  A value follows its option as the next word, after
  an equals sign, or, for a one-letter name, directly.  One-letter options that take
  no value may share a dash, and an equals sign after the first of them is no matter.
* A lone dash, a negative number and a word with a space are positional.
* After `--` every word is positional.
* Positional words are taken once, where the first of them stands; those that stand
  further behind are left over.

`Grammar.read` turns the words into steps, in order; what the steps mean is for its
caller to say.
-/
namespace Offside.Command

abbrev Word := List Char

inductive Switch
  | help
  | version
  | compact
  | noHoverGuard
  | indent
  | rootSelector
  | config
  | verbose
  | watch
deriving DecidableEq, Repr

structure Opt where
  switch : Switch
  names : List Word
  takesValue : Bool := false
deriving DecidableEq, Repr

inductive Arity
  /-- So many words, none of which has to be there. -/
  | upTo (n : Nat)
  /-- Any number of words. -/
  | many
  /-- One word, and after it everything to the end of the line, options too. -/
  | subcommand
deriving DecidableEq, Repr

structure Grammar where
  /-- The name it goes by in messages. -/
  program : String
  options : List Opt
  arity : Arity
deriving DecidableEq, Repr

/-! ## Misuse -/

inductive Misuse
  | ambiguous (word : Word) (names : List Word)
  | valueMissing (option : Opt)
  | valueIgnored (option : Opt) (value : Word)
  | notNumber (option : Opt) (value : Word)
  | unknownCommand (word : Word) (commands : List Word)
  | leftOver (words : List Word)
deriving DecidableEq, Repr

def quoted (w : Word) : String := String.ofList (Quoted.encode w)

def joined (separator : String) (ws : List Word) : String :=
  separator.intercalate (ws.map String.ofList)

def Opt.title (o : Opt) : String := "argument " ++ joined "/" o.names

def Misuse.message : Misuse → String
  | ambiguous word names =>
    "ambiguous option: " ++ String.ofList word ++ " could match " ++ joined ", " names
  | valueMissing option => option.title ++ ": expected one argument"
  | valueIgnored option value => option.title ++ ": ignored explicit argument " ++ quoted value
  | notNumber option value => option.title ++ ": invalid int value: " ++ quoted value
  | unknownCommand word commands =>
    "argument Command: invalid choice: " ++ quoted word ++ " (choose from " ++
      ", ".intercalate (commands.map quoted) ++ ")"
  | leftOver words => "unrecognized arguments: " ++ joined " " words

/-! ## One word -/

/-- A word read as an option, under its full name. -/
structure Reading where
  option : Opt
  name : Word
  /-- What stands behind the name in the same word, without an equals sign between them. -/
  value : Option Word
deriving DecidableEq, Repr

inductive Mark
  | positional
  /-- The `--` after which every word is positional. -/
  | divider
  | option (reading : Reading)
  | unknownOption
deriving DecidableEq, Repr

def Mark.isOption : Mark → Bool
  | option _ => true
  | unknownOption => true
  | _ => false

def dividerWord : Word := ['-', '-']

def isLong (w : Word) : Bool := dividerWord.isPrefixOf w

def splitEquals : Word → Option (Word × Word)
  | [] => none
  | c :: cs => if c == '=' then some ([], cs) else (splitEquals cs).map fun p => (c :: p.1, p.2)

/-- Digits after a dash, or a point with digits behind it. A line feed at the end is no matter. -/
def looksNegative : Word → Bool
  | '-' :: cs =>
    let body := if cs.getLast? == some '\n' then cs.dropLast else cs
    match body.dropWhile isAnyDigit with
    | [] => !body.isEmpty
    | '.' :: part => !part.isEmpty && part.all isAnyDigit
    | _ => false
  | _ => false

namespace Grammar

def names (g : Grammar) : List (Word × Opt) :=
  g.options.flatMap fun o => o.names.map fun name => (name, o)

def find? (g : Grammar) (name : Word) : Option Opt := g.names.lookup name

/-- The options that a long name, perhaps cut short, may stand for. -/
def longCandidates (g : Grammar) (w : Word) : List Reading :=
  let (start, value) : Word × Option Word :=
    match splitEquals w with
    | some (start, value) => (start, some value)
    | none => (w, none)
  (g.names.filter fun p => start.isPrefixOf p.1).map fun p =>
    { option := p.2, name := p.1, value := value }

def shortCandidates (g : Grammar) (w : Word) : List Reading :=
  (g.names.filter fun p => p.1 == w.take 2).map fun p =>
    { option := p.2, name := p.1, value := some (w.drop 2) }

def candidates (g : Grammar) (w : Word) : List Reading :=
  if isLong w then g.longCandidates w else g.shortCandidates w

def markCut (g : Grammar) (w : Word) : Except Misuse Mark :=
  match g.candidates w with
  | [reading] => .ok (.option reading)
  | [] => .ok (if looksNegative w || w.contains ' ' then .positional else .unknownOption)
  | several => .error (.ambiguous w (several.map Reading.name))

def mark (g : Grammar) (w : Word) : Except Misuse Mark :=
  if w.head? != some '-' then .ok .positional
  else
    match g.find? w with
    | some o => .ok (.option { option := o, name := w, value := none })
    | none =>
      if w.length = 1 then .ok .positional
      else
        match splitEquals w with
        | none => g.markCut w
        | some (name, value) =>
          match g.find? name with
          | some o => .ok (.option { option := o, name := name, value := some value })
          | none => g.markCut w

def marks (g : Grammar) : List Word → Except Misuse (List (Word × Mark))
  | [] => .ok []
  | w :: ws =>
    if w == dividerWord then .ok ((w, .divider) :: ws.map fun w => (w, .positional))
    else
      match g.mark w with
      | .error misuse => .error misuse
      | .ok m => (g.marks ws).map ((w, m) :: ·)

end Grammar

/-! ## Options and their values -/

inductive Step
  | set (option : Opt) (value : Word)
  /-- The positional words, one list for each place of the grammar. -/
  | fill (words : List (List Word))
  /-- A word that has no meaning here. -/
  | leave (word : Word)
  /-- The command line cannot be read further. -/
  | refuse (misuse : Misuse)
deriving DecidableEq, Repr

abbrev Taken := List Step × Nat

/-- An option whose word holds no value; the value may be the next word. -/
def bare (o : Opt) (next : Option (Word × Mark)) : Taken :=
  if o.takesValue then
    match next with
    | some (w, .positional) => ([.set o w], 1)
    | _ => ([.refuse (.valueMissing o)], 0)
  else ([.set o []], 0)

/-- Puts a step before others, unless these refuse the word they come from. -/
def Taken.after (first : Step) (taken : Taken) : Taken :=
  match taken with
  | ([.refuse misuse], n) => ([.refuse misuse], n)
  | (steps, n) => (first :: steps, n)

/-- A one-letter option and the text behind its name: its value, or more one-letter options. -/
def cluster (g : Grammar) (next : Option (Word × Mark)) (o : Opt) : List Char → Taken
  | [] => bare o next
  | c :: cs =>
    if o.takesValue then ([.set o (c :: cs)], 0)
    else
      match g.find? ['-', c] with
      | none => ([.refuse (.valueIgnored o (c :: cs))], 0)
      | some following => (cluster g next following cs).after (.set o [])

def Reading.take (g : Grammar) (next : Option (Word × Mark)) (r : Reading) : Taken :=
  match r.value with
  | none => bare r.option next
  | some value =>
    if r.option.takesValue then ([.set r.option value], 0)
    else if isLong r.name || value.isEmpty then ([.refuse (.valueIgnored r.option value)], 0)
    else cluster g next r.option value

/-! ## Positional words -/

def dividers : List Mark → Nat
  | .divider :: ms => dividers ms + 1
  | _ => 0

/-- How many words one place takes: one positional word, with a divider before or after it. -/
def placeSize (ms : List Mark) : Nat :=
  let before := dividers ms
  match ms.drop before with
  | .positional :: rest => before + 1 + dividers rest
  | _ => before

def placeSizes : Nat → List Mark → List Nat
  | 0, _ => []
  | n + 1, ms => placeSize ms :: placeSizes n (ms.drop (placeSize ms))

def Arity.sizes? (a : Arity) (ms : List Mark) : Option (List Nat) :=
  match a with
  | upTo n => some (placeSizes n ms)
  | many => some [(ms.takeWhile fun m => !m.isOption).length]
  | subcommand =>
    match ms.drop (dividers ms) with
    | .positional :: _ => some [ms.length]
    | _ => none

def cut {α : Type} : List Nat → List α → List (List α)
  | [], _ => []
  | n :: ns, xs => xs.take n :: cut ns (xs.drop n)

/-- The words of a place; a divider among them is dropped, but a subcommand keeps it. -/
def Arity.wordsOf (a : Arity) (ws : List Word) : List Word :=
  match a with
  | subcommand => ws
  | _ => ws.erase dividerWord

/-! ## The whole line -/

/-- Reads marked words.  The first `skip` have been used already, and `expecting` says whether
positional words are still to come. -/
def Grammar.readFrom (g : Grammar) : (skip : Nat) → (expecting : Bool) → List (Word × Mark) → List Step
  | _, _, [] => []
  | skip + 1, expecting, _ :: rest => g.readFrom skip expecting rest
  | 0, expecting, (_, .option r) :: rest =>
    let (steps, used) := r.take g rest.head?
    steps ++ g.readFrom used expecting rest
  | 0, expecting, (w, .unknownOption) :: rest => .leave w :: g.readFrom 0 expecting rest
  | 0, true, (w, m) :: rest =>
    match g.arity.sizes? (m :: rest.map Prod.snd) with
    | none => .leave w :: g.readFrom 0 true rest
    | some sizes =>
      let used := sizes.foldl (· + ·) 0
      if used = 0 then .leave w :: g.readFrom 0 true rest
      else
        let words := (cut sizes (w :: rest.map Prod.fst)).map g.arity.wordsOf
        .fill words :: g.readFrom (used - 1) false rest
  | 0, false, (w, _) :: rest => .leave w :: g.readFrom 0 false rest

def Grammar.read (g : Grammar) (ws : List Word) : List Step :=
  match g.marks ws with
  | .error misuse => [.refuse misuse]
  | .ok marked => g.readFrom 0 true marked

end Offside.Command
