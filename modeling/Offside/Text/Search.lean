/-!
# Words inside a text

Where a fixed word occurs, and replacement from left to right.  A replacement
rule looks at what is left of the text and says what stands there and how many
further characters it covers; `replaceAll` walks the text once, skipping what a
rule has covered, so its recursion is on the text alone.
-/
namespace Offside

/-! ## Occurrences -/

def occurs (word : List Char) : List Char → Bool
  | [] => word.isEmpty
  | c :: cs => word.isPrefixOf (c :: cs) || occurs word cs

def indexOf? (word : List Char) : List Char → Option Nat
  | [] => if word.isEmpty then some 0 else none
  | c :: cs => if word.isPrefixOf (c :: cs) then some 0 else (indexOf? word cs).map (· + 1)

theorem indexOf?_isSome (word : List Char) : ∀ cs, (indexOf? word cs).isSome = occurs word cs
  | [] => by by_cases h : word.isEmpty = true <;> simp [indexOf?, occurs, h]
  | c :: cs => by
    have ih := indexOf?_isSome word cs
    by_cases h : word.isPrefixOf (c :: cs) = true <;> simp [indexOf?, occurs, h, ih]

/-! ## Replacement -/

/-- What a rule finds at the front of a text: the replacement, and how many
characters after the first one it covers. -/
structure Found (α : Type) where
  put : List α
  more : Nat
deriving Repr

def replaceFrom {α : Type} (rule : List α → Option (Found α)) : Nat → List α → List α
  | _, [] => []
  | skip + 1, _ :: cs => replaceFrom rule skip cs
  | 0, c :: cs =>
    match rule (c :: cs) with
    | some found => found.put ++ replaceFrom rule found.more cs
    | none => c :: replaceFrom rule 0 cs

/-- Applies `rule` at every place it fits, from left to right, never inside a
stretch that it has already covered. -/
def replaceAll {α : Type} (rule : List α → Option (Found α)) (cs : List α) : List α :=
  replaceFrom rule 0 cs

theorem replaceFrom_eq_drop {α : Type} (rule : List α → Option (Found α)) :
    ∀ (k : Nat) (cs : List α), replaceFrom rule k cs = replaceAll rule (cs.drop k)
  | 0, cs => by simp [replaceAll]
  | k + 1, [] => by simp [replaceAll, replaceFrom]
  | k + 1, c :: cs => by
    rw [replaceFrom, replaceFrom_eq_drop rule k cs, List.drop_succ_cons]

theorem replaceAll_of_none {α : Type} {rule : List α → Option (Found α)} :
    ∀ {cs : List α}, (∀ u, u <:+ cs → rule u = none) → replaceAll rule cs = cs
  | [], _ => rfl
  | c :: cs, h => by
    have ih : replaceAll rule cs = cs :=
      replaceAll_of_none fun u hu => h u (hu.trans (List.suffix_cons c cs))
    have hc : rule (c :: cs) = none := h _ List.suffix_rfl
    simp only [replaceAll] at ih ⊢
    simp [replaceFrom, hc, ih]

end Offside
