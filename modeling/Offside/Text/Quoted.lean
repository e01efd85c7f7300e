import Offside.Text.Printable

/-!
# Texts in quotes

A text inside a message stands in single quotes, or in double quotes if it holds a
single quote and no double one.  Backslashes and the enclosing quote are escaped,
and so is every character that is not shown as itself.
-/
namespace Offside

def hexText (width n : Nat) : List Char :=
  let digits := Nat.toDigits 16 n
  List.replicate (width - digits.length) '0' ++ digits

namespace Quoted

def quoteFor (cs : List Char) : Char := if cs.contains '\'' && !cs.contains '"' then '"' else '\''

def escapeNumber (n : Nat) : List Char :=
  if n < 0x100 then '\\' :: 'x' :: hexText 2 n
  else if n < 0x10000 then '\\' :: 'u' :: hexText 4 n
  else '\\' :: 'U' :: hexText 8 n

def escapeChar (quote c : Char) : List Char :=
  if c == quote || c == '\\' then ['\\', c]
  else if c == '\n' then ['\\', 'n']
  else if c == '\r' then ['\\', 'r']
  else if c == '\t' then ['\\', 't']
  else if isPrintable c then [c]
  else escapeNumber c.toNat

def encode (cs : List Char) : List Char :=
  let quote := quoteFor cs
  [quote] ++ cs.flatMap (escapeChar quote) ++ [quote]

end Quoted

end Offside
