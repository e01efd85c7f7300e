import Offside.Source

/-!
# The physical lines of a source

What the lines of a prepared source say, their offsets aside: they are the pieces
between the line breaks (`prepare_texts`).
-/
namespace Offside

theorem splitLines_ne_nil (stop : Nat) (ps : List Placed) : splitLines stop ps ≠ [] := by
  cases ps with
  | nil => simp [splitLines]
  | cons p ps =>
    rw [splitLines]
    split
    · simp
    · split <;> simp

/-- The texts of the lines are the characters, split at LF. -/
theorem splitLines_texts (stop : Nat) : ∀ ps : List Placed,
    (splitLines stop ps).map Line.text = (ps.map Prod.fst).splitOn '\n'
  | [] => rfl
  | (c, i) :: ps => by
    have ih := splitLines_texts stop ps
    rw [List.map_cons, List.splitOn_cons_eq_if_modifyHead, ← ih, splitLines]
    split
    · rfl
    · cases h : splitLines stop ps with
      | nil => exact absurd h (splitLines_ne_nil stop ps)
      | cons line lines => rfl

/-- No piece has the character in it at which the text was split. -/
theorem not_mem_of_mem_splitOn {sep : Char} : ∀ {cs l : List Char}, l ∈ cs.splitOn sep → sep ∉ l
  | [], l, h => by
    rw [List.splitOn_nil, List.mem_singleton] at h
    simp [h]
  | c :: cs, l, h => by
    rw [List.splitOn_cons_eq_if_modifyHead] at h
    split at h
    · rcases List.mem_cons.1 h with rfl | h
      · simp
      · exact not_mem_of_mem_splitOn h
    · rename_i hc
      cases hs : cs.splitOn sep with
      | nil => exact absurd hs (List.splitOn_ne_nil _ _)
      | cons first others =>
        have hfirst : sep ∉ first := not_mem_of_mem_splitOn (by rw [hs]; exact List.mem_cons_self)
        rw [hs, List.modifyHead_cons] at h
        rcases List.mem_cons.1 h with rfl | h
        · simp only [beq_iff_eq] at hc
          simp [Ne.symm hc, hfirst]
        · exact not_mem_of_mem_splitOn (by rw [hs]; exact List.mem_cons_of_mem first h)

theorem prepare_texts (source : List Char) :
    (prepare false source).map Line.text = (unifyBreaks source).splitOn '\n' := by
  rw [← placeFrom_map_fst 0 source, ← splitLines_texts source.length]
  rfl

/-- A text without CR keeps its line breaks as they are. -/
theorem unifyBreaks_of_not_mem {cs : List Char} (h : '\r' ∉ cs) : unifyBreaks cs = cs := by
  fun_induction unifyBreaks cs with
  | case1 => rfl
  | case2 cs ih => simp at h
  | case3 cs _ ih => simp at h
  | case4 c cs _ _ ih => rw [ih fun hm => h (List.mem_cons_of_mem c hm)]

theorem not_mem_intercalate {c : Char} (hc : c ≠ '\n') : ∀ {texts : List (List Char)}, (∀ text ∈ texts, c ∉ text) →
    c ∉ ['\n'].intercalate texts
  | [], _ => by simp
  | [text], h => by
    rw [List.intercalate_singleton]
    exact h text List.mem_cons_self
  | text :: next :: texts, h => by
    have ih := not_mem_intercalate hc fun t ht => h t (List.mem_cons_of_mem text ht)
    rw [List.intercalate_cons_cons, List.mem_append, List.mem_append, List.mem_singleton]
    rintro ((hm | hm) | hm)
    · exact h text List.mem_cons_self hm
    · exact hc hm
    · exact ih hm

/-- **Lines put together with LF are the lines that are read.** -/
theorem prepare_intercalate {texts : List (List Char)} (hne : texts ≠ [])
    (h : ∀ text ∈ texts, '\n' ∉ text ∧ '\r' ∉ text) :
    (prepare false (['\n'].intercalate texts)).map Line.text = texts := by
  have hcr : '\r' ∉ ['\n'].intercalate texts := not_mem_intercalate (by decide) fun t ht => (h t ht).2
  rw [prepare_texts, unifyBreaks_of_not_mem hcr, List.splitOn_intercalate '\n' (fun t ht => (h t ht).1) hne]

end Offside
