import Offside.Config.Value
import Offside.Journal
import Offside.Output

/-!
# Settings

What a project file may say: how CSS is written and how often a watched file is
looked at.  Every key is optional.  The keys are checked in a fixed order, whatever
order the file has, and the first one that is wrong decides the refusal.  Unknown
keys are noted before, and change nothing unless one cannot be shown.
-/
namespace Offside.Config

structure Settings where
  options : Options := {}
  /-- Seconds between two looks at a watched file. -/
  interval : Float := 0.1
  /-- Seconds to wait for a change to settle. -/
  debounce : Float := 0.03
deriving Repr

inductive Refusal
  | notMapping
  /-- A key that is to be noted has a whole number with too many digits. -/
  | keyTooLong
  | indentKind
  | indentNegative
  | rootSelector
  | flag (key : String)
  | watchNotMapping
  | seconds (key : String)
  /-- A whole number of seconds is beyond every double. -/
  | secondsTooLarge
  /-- No memory holds so many spaces. -/
  | indentNoMemory
  /-- A number of spaces is beyond every length. -/
  | indentTooLarge
deriving DecidableEq, Repr

def Refusal.message : Refusal → String
  | notMapping => "Config root must be a mapping"
  | keyTooLong =>
    "Exceeds the limit (" ++ toString digitLimit ++ " digits) for integer string conversion; " ++
      "use sys.set_int_max_str_digits() to increase the limit"
  | indentKind => "'indent' must be a number of spaces or a string"
  | indentNegative => "'indent' must not be negative"
  | rootSelector => "'root_selector' must be a non-empty string"
  | flag key => "'" ++ key ++ "' must be true or false"
  | watchNotMapping => "'watch' must be a mapping"
  | seconds key => "'watch." ++ key ++ "' must be a non-negative number"
  | secondsTooLarge => "int too large to convert to float"
  | indentNoMemory => ""
  | indentTooLarge => "cannot fit 'int' into an index-sized integer"

def Refusal.isConfigFault : Refusal → Bool
  | keyTooLong | secondsTooLarge | indentNoMemory | indentTooLarge => false
  | _ => true

def knownKeys : List String :=
  ["indent", "root_selector", "compact", "minify", "hover_guard", "watch"]

def isKnown (key : Key) : Bool := knownKeys.any fun k => key == .named k

/-- The notes about keys that mean nothing, in their order, up to one that cannot be shown. -/
def unknownNotes : Value → List Note
  | .map entries =>
    ((entries.filter fun e => !isKnown e.1).takeWhile fun e => e.1.showable).map fun e =>
      { level := .warning, text := "Ignoring unknown config key '" ++ e.1.label ++ "'" }
  | _ => []

/-! ## Single values -/

/-- No text is as long as this: 2 ^ 63 without the 48 bytes before a text and the one behind it. -/
def textLimit : Int := 9223372036854775759

/-- No text has as great a length as this: 2 ^ 63. -/
def lengthLimit : Int := 9223372036854775808

def spaces (n : Int) : Except Refusal (List Char) :=
  if n < textLimit then .ok (List.replicate n.toNat ' ')
  else if n < lengthLimit then .error .indentNoMemory
  else .error .indentTooLarge

def indentOf : Value → Except Refusal (List Char)
  | .scalar (.int n) => if n < 0 then .error .indentNegative else spaces n
  | .scalar (.text cs) => .ok cs
  | _ => .error .indentKind

def rootSelectorOf : Value → Except Refusal (List Char)
  | .scalar (.text cs) => if allBlank cs then .error .rootSelector else .ok (trim cs)
  | _ => .error .rootSelector

def flagOf (key : String) : Value → Except Refusal Bool
  | .scalar (.bool b) => .ok b
  | _ => .error (.flag key)

def secondsOf (key : String) : Value → Except Refusal Float
  | .scalar (.int n) =>
    if n < 0 then .error (.seconds key)
    else
      match Number.ofNat? n.toNat with
      | some x => .ok x
      | none => .error .secondsTooLarge
  | .scalar (.float x) => if x < 0 then .error (.seconds key) else .ok x
  | _ => .error (.seconds key)

def optional {α : Type} (entries : Entries) (key : String) (f : Value → Except Refusal α) :
    Except Refusal (Option α) :=
  match entries.get? key with
  | none => .ok none
  | some v => (f v).map some

/-! ## The whole file -/

/-- The watch section; one that holds nothing is as good as none. -/
def watchEntries (entries : Entries) : Except Refusal Entries :=
  match entries.get? "watch" with
  | none => .ok []
  | some v =>
    if v.isNothing then .ok []
    else
      match v with
      | .map watch => .ok watch
      | _ => .error .watchNotMapping

def Settings.ofEntries (entries : Entries) : Except Refusal Settings := do
  let indent ← optional entries "indent" indentOf
  let rootSelector ← optional entries "root_selector" rootSelectorOf
  let minify ← optional entries "minify" (flagOf "minify")
  let compact ← optional entries "compact" (flagOf "compact")
  let hoverGuard ← optional entries "hover_guard" (flagOf "hover_guard")
  let watch ← watchEntries entries
  let interval ← optional watch "interval" (secondsOf "interval")
  let debounce ← optional watch "debounce" (secondsOf "debounce")
  let base : Settings := {}
  return {
    options :=
      { indent := indent.getD base.options.indent
        rootSelector := rootSelector.getD base.options.rootSelector
        compact := (compact <|> minify).getD base.options.compact
        hoverGuard := hoverGuard.getD base.options.hoverGuard }
    interval := interval.getD base.interval
    debounce := debounce.getD base.debounce }

/-- The settings that a project file's value stands for; an empty file has the usual ones. -/
def Settings.ofValue : Value → Except Refusal Settings
  | .scalar .null => .ok {}
  | .map entries => if entries.all fun e => e.1.showable then ofEntries entries else .error .keyTooLong
  | _ => .error .notMapping

end Offside.Config
