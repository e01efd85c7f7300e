import Mathlib.Data.List.DropRight
import Mathlib.Data.List.TakeWhile
import Offside.Text.CharClass

/-!
# Trimmed texts

How trimming meets appending: blanks at either end go, and a text that begins and
ends with something visible stays.
-/
namespace Offside

theorem allBlank_iff {cs : List Char} : allBlank cs = true ↔ ∀ c ∈ cs, isBlank c = true := List.all_eq_true

theorem allBlank_cons {c : Char} {cs : List Char} : allBlank (c :: cs) = true ↔ isBlank c = true ∧ allBlank cs = true := by
  rw [allBlank, List.all_cons, Bool.and_eq_true, allBlank]

@[simp] theorem allBlank_append (a b : List Char) : allBlank (a ++ b) = (allBlank a && allBlank b) := List.all_append

/-! ## On the right -/

theorem trimRight_concat (c : Char) : ∀ cs : List Char,
    trimRight (cs ++ [c]) = if isBlank c then trimRight cs else cs ++ [c]
  | [] => rfl
  | d :: cs => by
    rw [List.cons_append, trimRight, trimRight_concat c cs]
    by_cases hc : isBlank c = true
    · rw [if_pos hc, if_pos hc, trimRight]
    · rw [if_neg hc, if_neg hc]
      cases cs <;> rfl

theorem trimRight_eq_rdropWhile (cs : List Char) : trimRight cs = cs.rdropWhile isBlank := by
  induction cs using List.reverseRecOn with
  | nil => rfl
  | append_singleton cs c ih => rw [trimRight_concat, List.rdropWhile_concat, ih]

@[simp] theorem trimRight_trimRight (cs : List Char) : trimRight (trimRight cs) = trimRight cs := by
  simp only [trimRight_eq_rdropWhile, List.rdropWhile_idempotent]

theorem trimRight_append_blank {b : List Char} (hb : allBlank b = true) (a : List Char) :
    trimRight (a ++ b) = trimRight a := by
  induction b using List.reverseRecOn with
  | nil => rw [List.append_nil]
  | append_singleton b c ih =>
    rw [allBlank_append, Bool.and_eq_true] at hb
    have hc : isBlank c = true := allBlank_iff.1 hb.2 c List.mem_cons_self
    rw [← List.append_assoc, trimRight_concat, if_pos hc, ih hb.1]

theorem trimRight_of_getLast? {cs : List Char} {c : Char} (h : cs.getLast? = some c) (hc : isBlank c = false) :
    trimRight cs = cs := by
  obtain ⟨ds, rfl⟩ := List.getLast?_eq_some_iff.1 h
  rw [trimRight_concat, if_neg (by simp [hc])]

/-- A text is what trimming leaves of it, and blanks. -/
theorem exists_trimRight_append (cs : List Char) : ∃ b, allBlank b = true ∧ cs = trimRight cs ++ b := by
  refine ⟨cs.rtakeWhile isBlank, allBlank_iff.2 fun c hc => List.mem_rtakeWhile_imp hc, ?_⟩
  rw [trimRight_eq_rdropWhile, List.rdropWhile_append_rtakeWhile]

/-! ## On both sides -/

theorem trimLeft_append_blank {a : List Char} (ha : allBlank a = true) (b : List Char) :
    trimLeft (a ++ b) = trimLeft b :=
  List.dropWhile_append_of_pos (allBlank_iff.1 ha)

theorem trimLeft_cons_of_visible {c : Char} (hc : isBlank c = false) (cs : List Char) :
    trimLeft (c :: cs) = c :: cs :=
  List.dropWhile_cons_of_neg (by simp [hc])

theorem trimRight_cons_of_visible {c : Char} (hc : isBlank c = false) (cs : List Char) :
    trimRight (c :: cs) = c :: trimRight cs := by
  rw [trimRight]
  cases trimRight cs with
  | nil => simp [hc]
  | cons d ds => rfl

theorem exists_append_trimLeft (cs : List Char) : ∃ a, allBlank a = true ∧ cs = a ++ trimLeft cs :=
  ⟨cs.takeWhile isBlank, allBlank_iff.2 fun _ hc => List.mem_takeWhile_imp hc, List.takeWhile_append_dropWhile.symm⟩

theorem trimLeft_append_cons {d : Char} (hd : isBlank d = false) (b : List Char) : ∀ a : List Char,
    trimLeft (a ++ d :: b) = trimLeft a ++ d :: b
  | [] => trimLeft_cons_of_visible hd b
  | c :: a => by
    by_cases hc : isBlank c = true
    · have ih := trimLeft_append_cons hd b a
      unfold trimLeft at ih ⊢
      simp [hc, ih]
    · rw [Bool.not_eq_true] at hc
      rw [List.cons_append, trimLeft_cons_of_visible hc, trimLeft_cons_of_visible hc, List.cons_append]

theorem trimRight_append_cons {d : Char} (hd : isBlank d = false) (b : List Char) : ∀ a : List Char,
    trimRight (a ++ d :: b) = a ++ d :: trimRight b
  | [] => trimRight_cons_of_visible hd b
  | c :: a => by
    rw [List.cons_append, trimRight, trimRight_append_cons hd b a]
    cases a <;> rfl

theorem trimRight_visible_append {a : List Char} (h : ∀ c ∈ a, isBlank c = false) (b : List Char) :
    trimRight (a ++ b) = a ++ trimRight b := by
  induction a with
  | nil => rfl
  | cons c a ih =>
    rw [List.forall_mem_cons] at h
    rw [List.cons_append, trimRight_cons_of_visible h.1, ih h.2, List.cons_append]

theorem trim_append_cons {d : Char} (hd : isBlank d = false) (a b : List Char) :
    trim (a ++ d :: b) = trimLeft a ++ d :: trimRight b := by
  rw [trim, trimLeft_append_cons hd, trimRight_append_cons hd]

theorem head?_trimLeft {cs : List Char} {c : Char} (h : (trimLeft cs).head? = some c) : isBlank c = false := by
  have := List.head?_dropWhile_not isBlank cs
  rw [trimLeft] at h
  rw [h] at this
  exact this

/-- A trimmed text is empty, or begins with something visible. -/
theorem trim_cases (cs : List Char) :
    (trim cs = [] ∧ trimLeft cs = []) ∨
      ∃ c ds, isBlank c = false ∧ trimLeft cs = c :: ds ∧ trim cs = c :: trimRight ds := by
  cases h : trimLeft cs with
  | nil => exact Or.inl ⟨by rw [trim, h]; rfl, rfl⟩
  | cons c ds =>
    have hc : isBlank c = false := head?_trimLeft (by rw [h]; rfl)
    exact Or.inr ⟨c, ds, hc, rfl, by rw [trim, h, trimRight_cons_of_visible hc]⟩

@[simp] theorem trimLeft_trim (cs : List Char) : trimLeft (trim cs) = trim cs := by
  rcases trim_cases cs with ⟨h, -⟩ | ⟨c, ds, hc, -, h⟩
  · rw [h]
    rfl
  · rw [h, trimLeft_cons_of_visible hc]

@[simp] theorem trimRight_trim (cs : List Char) : trimRight (trim cs) = trim cs := trimRight_trimRight _

@[simp] theorem trim_trim (cs : List Char) : trim (trim cs) = trim cs := by
  rw [trim, trimLeft_trim, trimRight_trim]

theorem trim_append_blank {a : List Char} (ha : allBlank a = true) (b : List Char) : trim (a ++ b) = trim b := by
  rw [trim, trimLeft_append_blank ha, trim]

theorem trim_cons_of_blank {c : Char} (hc : isBlank c = true) (cs : List Char) : trim (c :: cs) = trim cs :=
  trim_append_blank (a := [c]) (allBlank_iff.2 (by simpa using hc)) cs

theorem trim_append_blank_right {b : List Char} (hb : allBlank b = true) (a : List Char) : trim (a ++ b) = trim a := by
  rw [trim, trimLeft, List.dropWhile_append]
  split
  · rename_i h
    have ha : trimLeft a = [] := List.isEmpty_iff.1 h
    rw [List.dropWhile_eq_nil_iff.2 (allBlank_iff.1 hb), trim, ha]
  · rw [trimRight_append_blank hb, trim, trimLeft]

@[simp] theorem trim_trimRight (cs : List Char) : trim (trimRight cs) = trim cs := by
  obtain ⟨b, hb, he⟩ := exists_trimRight_append cs
  conv_rhs => rw [he, trim_append_blank_right hb]

@[simp] theorem trim_trimLeft (cs : List Char) : trim (trimLeft cs) = trim cs := by
  obtain ⟨a, ha, he⟩ := exists_append_trimLeft cs
  conv_rhs => rw [he, trim_append_blank ha]

/-- A text is what trimming leaves of it, between blanks. -/
theorem exists_append_trim (cs : List Char) :
    ∃ a b, allBlank a = true ∧ allBlank b = true ∧ cs = a ++ trim cs ++ b := by
  obtain ⟨a, ha, he⟩ := exists_append_trimLeft cs
  obtain ⟨b, hb, he'⟩ := exists_trimRight_append (trimLeft cs)
  exact ⟨a, b, ha, hb, by rwa [List.append_assoc, trim, ← he']⟩

/-- What a trimmed text begins with is visible. -/
theorem head?_of_trimmed {cs : List Char} (h : trim cs = cs) {c : Char} (hc : cs.head? = some c) :
    isBlank c = false := by
  rw [← h, ← trimLeft_trim] at hc
  exact head?_trimLeft hc

/-- What a trimmed text ends with is visible. -/
theorem getLast?_of_trimmed {cs : List Char} (h : trim cs = cs) {c : Char} (hc : cs.getLast? = some c) :
    isBlank c = false := by
  have hself : cs.rdropWhile isBlank = cs := by rw [← trimRight_eq_rdropWhile, ← h, trimRight_trim]
  obtain ⟨ds, rfl⟩ := List.getLast?_eq_some_iff.1 hc
  have hlast := List.rdropWhile_eq_self_iff.1 hself (by simp)
  rwa [List.getLast_concat, Bool.not_eq_true] at hlast

/-- A text that begins and ends with something visible is trimmed. -/
theorem trim_eq_self {cs : List Char} (hfirst : ∀ c ∈ cs.head?, isBlank c = false)
    (hlast : ∀ c ∈ cs.getLast?, isBlank c = false) : trim cs = cs := by
  cases cs with
  | nil => rfl
  | cons c cs =>
    rw [trim, trimLeft_cons_of_visible (hfirst c rfl)]
    exact trimRight_of_getLast? List.getLast?_cons (hlast _ List.getLast?_cons)

theorem trim_eq_nil_iff {cs : List Char} : trim cs = [] ↔ allBlank cs = true := by
  rcases trim_cases cs with ⟨h, hl⟩ | ⟨c, ds, hc, hl, h⟩
  · simp only [h, true_iff, allBlank_iff]
    exact List.dropWhile_eq_nil_iff.1 hl
  · simp only [h, reduceCtorEq, false_iff]
    intro hall
    have hmem : c ∈ trimLeft cs := by rw [hl]; exact List.mem_cons_self
    have := allBlank_iff.1 hall c ((List.dropWhile_sublist isBlank).subset hmem)
    rw [hc] at this
    cases this

theorem getLast?_append_trim {text : List Char} (h : allBlank text = false) (p : List Char) :
    (p ++ trim text).getLast? = (trim text).getLast? := by
  have hne : trim text ≠ [] := fun hn => by rw [trim_eq_nil_iff.1 hn] at h; cases h
  rw [List.getLast?_append_of_ne_nil _ hne]

@[simp] theorem isEmpty_trim (cs : List Char) : (trim cs).isEmpty = allBlank cs := by
  rw [Bool.eq_iff_iff, List.isEmpty_iff, trim_eq_nil_iff]

@[simp] theorem allBlank_trim (cs : List Char) : allBlank (trim cs) = allBlank cs := by
  rw [Bool.eq_iff_iff, ← trim_eq_nil_iff, ← trim_eq_nil_iff, trim_trim]

end Offside
