import Offside.Console.Item

/-!
# Excerpts

The lines shown around a fault.  Lines are counted the way a screen breaks them: at
line feeds and carriage returns, and also at form feeds, separators and the other
characters that end a line.
-/
namespace Offside.Console

def isLineBreak (c : Char) : Bool :=
  let n := c.toNat
  (0x0A ≤ n && n ≤ 0x0D) || (0x1C ≤ n && n ≤ 0x1E) || n == 0x85 || n == 0x2028 || n == 0x2029

/-- The lines of a text; `begun` says whether the current one has a character already.  A carriage
return and a line feed are one break, and a last line without a character is none. -/
def lineCountFrom : (begun : Bool) → List Char → Nat
  | begun, [] => if begun then 1 else 0
  | _, '\r' :: '\n' :: cs => 1 + lineCountFrom false cs
  | _, c :: cs => if isLineBreak c then 1 + lineCountFrom false cs else lineCountFrom true cs

def lineCount (cs : List Char) : Nat := lineCountFrom false cs

def excerptContext : Int := 2

def Excerpt.around (source : List Char) (line : Int) : Excerpt :=
  { source := source
    first := max 1 (line - excerptContext)
    last := min (max 1 (lineCount source : Int)) (line + excerptContext)
    marked := line }

end Offside.Console
