import Offside.Text.Quoted
import Offside.Source

/-!
# UTF-8

Files hold bytes.  Writing encodes; reading decodes and, where the bytes are no
UTF-8, says which of them are wrong and in what way: a byte that begins no
character, a character that breaks off before another byte, or one that the end
of the data cuts short.
-/
namespace Offside.Utf8

def encode (cs : List Char) : List UInt8 := cs.flatMap String.utf8EncodeChar

inductive Wrong
  | start
  | continuation
  | ending
deriving DecidableEq, Repr

/-- The wrong bytes: the first of them, its position, and how many there are. -/
structure DecodeFault where
  wrong : Wrong
  first : UInt8
  position : Nat
  size : Nat
deriving DecidableEq, Repr

def Wrong.message : Wrong → String
  | start => "invalid start byte"
  | continuation => "invalid continuation byte"
  | ending => "unexpected end of data"

def DecodeFault.message (f : DecodeFault) : String :=
  let bytes :=
    if f.size = 1 then
      "byte 0x" ++ String.ofList (hexText 2 f.first.toNat) ++ " in position " ++ toString f.position
    else
      "bytes in position " ++ toString f.position ++ "-" ++ toString (f.position + f.size - 1)
  "'utf-8' codec can't decode " ++ bytes ++ ": " ++ f.wrong.message

/-- What a first byte promises: its own bits, how many bytes follow it, and the bounds of the
next one. -/
structure Lead where
  bits : Nat
  tails : Nat
  low : UInt8 := 0x80
  high : UInt8 := 0xBF
deriving DecidableEq, Repr

/-- The bounds of the second byte leave out the long forms of small numbers, the surrogates, and
what lies beyond the last character. -/
def leadOf? (b : UInt8) : Option Lead :=
  if b < 0x80 then some { bits := b.toNat, tails := 0 }
  else if b < 0xC2 then none
  else if b < 0xE0 then some { bits := b.toNat % 32, tails := 1 }
  else if b == 0xE0 then some { bits := 0, tails := 2, low := 0xA0 }
  else if b == 0xED then some { bits := 13, tails := 2, high := 0x9F }
  else if b < 0xF0 then some { bits := b.toNat % 16, tails := 2 }
  else if b == 0xF0 then some { bits := 0, tails := 3, low := 0x90 }
  else if b < 0xF4 then some { bits := b.toNat % 8, tails := 3 }
  else if b == 0xF4 then some { bits := 4, tails := 3, high := 0x8F }
  else none

def readTails (low high : UInt8) : (tails seen bits : Nat) → List UInt8 → Except (Wrong × Nat) Nat
  | 0, _, bits, _ => .ok bits
  | _ + 1, seen, _, [] => .error (.ending, seen)
  | tails + 1, seen, bits, b :: bs =>
    if low ≤ b && b ≤ high then readTails 0x80 0xBF tails (seen + 1) (bits * 64 + b.toNat % 64) bs
    else .error (.continuation, seen)

def readChar (position : Nat) (b : UInt8) (bs : List UInt8) : Except DecodeFault (Char × Nat) :=
  match leadOf? b with
  | none => .error { wrong := .start, first := b, position := position, size := 1 }
  | some lead =>
    match readTails lead.low lead.high lead.tails 1 lead.bits bs with
    | .error (wrong, size) => .error { wrong := wrong, first := b, position := position, size := size }
    | .ok n => .ok (Char.ofNat n, lead.tails)

/-- Decodes bytes, passing over the first `skip`, which belong to a character already read. -/
def decodeFrom : (skip position : Nat) → List UInt8 → Except DecodeFault (List Char)
  | _, _, [] => .ok []
  | skip + 1, position, _ :: bs => decodeFrom skip (position + 1) bs
  | 0, position, b :: bs =>
    match readChar position b bs with
    | .error fault => .error fault
    | .ok (c, tails) => (decodeFrom tails (position + 1) bs).map (c :: ·)

def decode (bs : List UInt8) : Except DecodeFault (List Char) := decodeFrom 0 0 bs

def mark : List UInt8 := [0xEF, 0xBB, 0xBF]

/-- Decodes the bytes of a file.  A byte order mark in front is no part of the text, not even one
that is cut short; positions count from after it. -/
def decodeFile (bs : List UInt8) : Except DecodeFault (List Char) :=
  if mark.isPrefixOf bs then decode (bs.drop mark.length)
  else if bs.isPrefixOf mark then .ok []
  else decode bs

def readText (bs : List UInt8) : Except DecodeFault (List Char) := (decodeFile bs).map unifyBreaks

end Offside.Utf8
