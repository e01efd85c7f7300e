/-!
# Character classes, trimming and size

Text is a `List Char` throughout the library, so that every function on it is a
recursion the kernel can follow.  This module fixes the two classes the language
is built on: the blank characters, which trimming and squeezing remove, and the
name characters, which make up identifiers after `$` and `@`.
-/
namespace Offside

/-! ## Blank characters

The class is a table, not a rule: the control characters that separate lines and
fields, the plain space, and every space or separator outside ASCII.  The
zero-width characters (U+200B, U+2060, U+FEFF) are not in it. -/

/-- The runs of code points that count as blank, both ends included. -/
def blankRuns : List (Nat × Nat) :=
  [(0x09, 0x0D), (0x1C, 0x20), (0x85, 0x85), (0xA0, 0xA0), (0x1680, 0x1680), (0x2000, 0x200A),
   (0x2028, 0x2029), (0x202F, 0x202F), (0x205F, 0x205F), (0x3000, 0x3000)]

def isBlank (c : Char) : Bool :=
  blankRuns.any fun run => run.1 ≤ c.toNat && c.toNat ≤ run.2

def allBlank (cs : List Char) : Bool := cs.all isBlank

def visible (cs : List Char) : List Char := cs.filter fun c => !isBlank c

/-! ## Trimming -/

def trimLeft (cs : List Char) : List Char := cs.dropWhile isBlank

def trimRight : List Char → List Char
  | [] => []
  | c :: cs =>
    match trimRight cs with
    | [] => if isBlank c then [] else [c]
    | d :: ds => c :: d :: ds

def trim (cs : List Char) : List Char := trimRight (trimLeft cs)

@[simp] theorem trimRight_nil : trimRight [] = [] := rfl

theorem trimRight_eq_nil_iff : ∀ {cs : List Char}, trimRight cs = [] ↔ ∀ c ∈ cs, isBlank c = true
  | [] => by simp
  | c :: cs => by
    have ih := @trimRight_eq_nil_iff cs
    rw [trimRight]
    cases h : trimRight cs with
    | nil =>
      have hall := ih.1 h
      by_cases hc : isBlank c = true <;> simp [hc]
      exact hall
    | cons d ds =>
      simp only [reduceCtorEq, List.mem_cons, false_iff]
      intro hall
      have : trimRight cs = [] := ih.2 fun x hx => hall x (Or.inr hx)
      rw [h] at this
      cases this

/-- Trimming on the right keeps every character that is not blank. -/
@[simp] theorem visible_trimRight : ∀ cs : List Char, visible (trimRight cs) = visible cs
  | [] => rfl
  | c :: cs => by
    have ih := visible_trimRight cs
    rw [trimRight]
    cases h : trimRight cs with
    | nil =>
      rw [h] at ih
      by_cases hc : isBlank c = true <;> simp_all [visible]
    | cons d ds =>
      rw [h] at ih
      simp only [visible, List.filter_cons] at ih ⊢
      rw [← ih]

@[simp] theorem visible_trimLeft : ∀ cs : List Char, visible (trimLeft cs) = visible cs
  | [] => rfl
  | c :: cs => by
    have ih := visible_trimLeft cs
    by_cases hc : isBlank c = true <;> simp_all [visible, trimLeft]

/-- Trimming keeps every character that is not blank. -/
@[simp] theorem visible_trim (cs : List Char) : visible (trim cs) = visible cs := by
  simp [trim]

/-! ## Name characters -/

/-- The characters of an identifier: ASCII letters and digits, `_` and `-`. -/
def isNameChar (c : Char) : Bool := c.isAlphanum || c == '_' || c == '-'

/-! ## Size -/

def utf8Length : List Char → Nat
  | [] => 0
  | c :: cs => c.utf8Size + utf8Length cs

theorem utf8Length_append : ∀ a b : List Char, utf8Length (a ++ b) = utf8Length a + utf8Length b
  | [], b => (Nat.zero_add (utf8Length b)).symm
  | c :: a, b => by rw [List.cons_append, utf8Length, utf8Length, utf8Length_append a b, Nat.add_assoc]

end Offside
