import Offside.Scope
import Offside.Text.Squeeze

/-!
# What is left without blanks

Squeezing takes blanks out and changes nothing else, so two texts that show the same
characters still do so when one of them has been squeezed.  The same goes for references:
what they stand for matters only in what it shows (`visible_substitute`).
-/
namespace Offside

@[simp] theorem visible_nil : visible [] = [] := rfl

@[simp] theorem visible_append (a b : List Char) : visible (a ++ b) = visible a ++ visible b := List.filter_append a b

theorem visible_cons (c : Char) (cs : List Char) : visible (c :: cs) = visible [c] ++ visible cs :=
  visible_append [c] cs

theorem visible_cons_of_blank {c : Char} (h : isBlank c = true) (cs : List Char) : visible (c :: cs) = visible cs := by
  simp [visible, h]

theorem visible_eq_nil {cs : List Char} (h : allBlank cs = true) : visible cs = [] := by
  rw [visible, List.filter_eq_nil_iff]
  intro c hc
  simp [List.all_eq_true.1 h c hc]

theorem visible_flatten : ∀ parts : List (List Char), visible parts.flatten = parts.flatMap visible
  | [] => rfl
  | part :: parts => by rw [List.flatten_cons, visible_append, visible_flatten parts, List.flatMap_cons]

theorem visible_intercalate (sep : List Char) : ∀ parts : List (List Char),
    visible (sep.intercalate parts) = (visible sep).intercalate (parts.map visible)
  | [] => by simp
  | [part] => by simp
  | part :: next :: parts => by
    have ih := visible_intercalate sep (next :: parts)
    rw [List.map_cons] at ih
    rw [List.intercalate_cons_cons, visible_append, visible_append, ih, List.map_cons, List.map_cons,
      List.intercalate_cons_cons]

/-- A blank separator does not show. -/
theorem visible_intercalate_blank {sep : List Char} (h : allBlank sep = true) : ∀ parts : List (List Char),
    visible (sep.intercalate parts) = parts.flatMap visible
  | [] => by simp
  | [part] => by simp
  | part :: next :: parts => by
    rw [List.intercalate_cons_cons, visible_append, visible_append, visible_eq_nil h, List.append_nil,
      visible_intercalate_blank h (next :: parts), List.flatMap_cons (x := part)]

/-! ## Squeezing -/

namespace Squeeze

theorem visible_dropAfterFrom (p : Char → Bool) : ∀ (after : Bool) (cs : List Char),
    visible (dropAfterFrom p after cs) = visible cs
  | _, [] => rfl
  | after, c :: cs => by
    rw [dropAfterFrom]
    split
    · rename_i h
      rw [visible_dropAfterFrom p true cs, visible_cons_of_blank (Bool.and_eq_true_iff.1 h).2]
    · rw [visible_cons, visible_dropAfterFrom p (p c) cs, ← visible_cons]

@[simp] theorem visible_dropAfter (p : Char → Bool) (cs : List Char) : visible (dropAfter p cs) = visible cs :=
  visible_dropAfterFrom p false cs

@[simp] theorem visible_dropBefore (p : Char → Bool) : ∀ cs : List Char, visible (dropBefore p cs) = visible cs
  | [] => rfl
  | c :: cs => by
    have ih := visible_dropBefore p cs
    rw [dropBefore]
    split
    · rename_i h
      rw [ih, visible_cons_of_blank (Bool.and_eq_true_iff.1 h).1]
    · rw [visible_cons, ih, ← visible_cons]

@[simp] theorem visible_collapseRuns : ∀ cs : List Char, visible (collapseRuns cs) = visible cs
  | [] => rfl
  | c :: cs => by
    have ih := visible_collapseRuns cs
    rw [collapseRuns]
    split
    · rename_i d ds hd
      rw [hd] at ih
      split
      · -- both are blank, and so is what replaces them
        rename_i h
        rw [Bool.and_eq_true] at h
        rw [visible_cons_of_blank (by decide), visible_cons_of_blank h.1, ← ih, visible_cons_of_blank h.2]
      · rw [visible_cons, ih, ← visible_cons]
    · rename_i hnil
      rw [hnil] at ih
      rw [visible_cons c cs, ← ih, visible_nil, List.append_nil]

theorem visible_value (cs : List Char) : visible (value cs) = visible cs := by
  simp [value]

theorem visible_params (cs : List Char) : visible (params cs) = visible cs := by
  simp [params]

end Squeeze

/-! ## References -/

/-- Two ways to read names that show the same. -/
def ShowAlike (get? get'? : List Char → Option (List Char)) : Prop :=
  ∀ name, (get? name).map visible = (get'? name).map visible

section

variable {get? get'? : List Char → Option (List Char)}

theorem visible_resolve (h : ShowAlike get? get'?) (name : List Char) :
    visible (resolve get? name) = visible (resolve get'? name) := by
  have hname := h name
  unfold resolve
  cases hg : get? name with
  | none =>
    rw [hg, Option.map_none, Eq.comm, Option.map_eq_none_iff] at hname
    rw [hname]
  | some value =>
    rw [hg, Option.map_some, Eq.comm, Option.map_eq_some_iff] at hname
    obtain ⟨value', hg', hv⟩ := hname
    rw [hg', Option.getD_some, Option.getD_some, hv]

/-- Where a reference stands does not depend on what it stands for. -/
theorem referenceAt_alike (h : ShowAlike get? get'?) (cs : List Char) :
    (referenceAt get? cs = none ∧ referenceAt get'? cs = none) ∨
      ∃ found found', referenceAt get? cs = some found ∧ referenceAt get'? cs = some found' ∧
        visible found.put = visible found'.put ∧ found.more = found'.more := by
  unfold referenceAt
  split
  · split
    · exact Or.inl ⟨rfl, rfl⟩
    · exact Or.inr ⟨_, _, rfl, rfl, visible_resolve h _, rfl⟩
  · exact Or.inl ⟨rfl, rfl⟩

theorem visible_replaceFrom (h : ShowAlike get? get'?) : ∀ (skip : Nat) (cs : List Char),
    visible (replaceFrom (referenceAt get?) skip cs) = visible (replaceFrom (referenceAt get'?) skip cs)
  | _, [] => by simp [replaceFrom]
  | skip + 1, _ :: cs => visible_replaceFrom h skip cs
  | 0, c :: cs => by
    rw [replaceFrom, replaceFrom]
    rcases referenceAt_alike h (c :: cs) with ⟨hn, hn'⟩ | ⟨found, found', hf, hf', hput, hmore⟩
    · rw [hn, hn']
      simp only
      rw [visible_cons, visible_replaceFrom h 0 cs, ← visible_cons]
    · rw [hf, hf']
      simp only
      rw [visible_append, visible_append, hput, hmore, visible_replaceFrom h found'.more cs]

/-- **References that show the same can be exchanged.** -/
theorem visible_substitute (h : ShowAlike get? get'?) (cs : List Char) :
    visible (substitute get? cs) = visible (substitute get'? cs) :=
  visible_replaceFrom h 0 cs

end

end Offside
