import Offside.Proofs.Trim
import Offside.Proofs.Visible
import Offside.Selector

/-!
# Selectors in both modes

A selector is cut at its top-level commas and put together again, in compact output with
nothing but a comma between the parts.  Nothing gets lost on the way unless the selector
ends with a comma (`intercalate_splitTopLevel`), so what it shows, and whether it asks for
hovering, is the same in both modes.
-/
namespace Offside

/-! ## Words and separators -/

section

variable {word : List Char} {c : Char}

theorem isPrefixOf_append_cons (hc : c ∉ word) : ∀ a b : List Char,
    word.isPrefixOf (a ++ c :: b) = word.isPrefixOf a := by
  induction word with
  | nil => simp
  | cons d word ih =>
    intro a b
    rw [List.mem_cons, not_or] at hc
    cases a with
    | nil =>
      rw [List.nil_append, List.isPrefixOf_cons_cons, beq_false_of_ne (Ne.symm hc.1)]
      rfl
    | cons e a => rw [List.cons_append, List.isPrefixOf_cons_cons, List.isPrefixOf_cons_cons, ih hc.2 a b]

variable (hne : word ≠ [])

include hne

theorem occurs_nil : occurs word [] = false := by
  simpa [occurs] using hne

/-- A word lies on one side of a character that it does not have. -/
theorem occurs_append_cons (hc : c ∉ word) (b : List Char) : ∀ a : List Char,
    occurs word (a ++ c :: b) = (occurs word a || occurs word b)
  | [] => by
    have hfront : word.isPrefixOf (c :: b) = word.isPrefixOf [] := isPrefixOf_append_cons hc [] b
    rw [List.nil_append, occurs_nil hne, Bool.false_or, occurs, hfront]
    cases word with
    | nil => exact absurd rfl hne
    | cons d word => rfl
  | e :: a => by
    have hfront : word.isPrefixOf (e :: (a ++ c :: b)) = word.isPrefixOf (e :: a) :=
      isPrefixOf_append_cons hc (e :: a) b
    rw [List.cons_append, occurs, occurs, hfront, occurs_append_cons hc b a, Bool.or_assoc]

variable {sep : List Char} (hsep : ∀ c ∈ sep, c ∉ word)

include hsep

theorem occurs_append_left (b : List Char) : occurs word (sep ++ b) = occurs word b := by
  induction sep with
  | nil => rfl
  | cons c sep ih =>
    have hc := occurs_append_cons hne (hsep c List.mem_cons_self) (sep ++ b) []
    rw [occurs_nil hne, Bool.false_or, ih fun d hd => hsep d (List.mem_cons_of_mem c hd)] at hc
    exact hc

theorem occurs_append_right (a : List Char) : occurs word (a ++ sep) = occurs word a := by
  cases sep with
  | nil => rw [List.append_nil]
  | cons c sep =>
    have hrest := occurs_append_left hne (fun d hd => hsep d (List.mem_cons_of_mem c hd)) []
    rw [List.append_nil, occurs_nil hne] at hrest
    rw [occurs_append_cons hne (hsep c List.mem_cons_self), hrest, Bool.or_false]

theorem occurs_append_append (hs : sep ≠ []) (a b : List Char) :
    occurs word (a ++ sep ++ b) = (occurs word a || occurs word b) := by
  cases sep with
  | nil => exact absurd rfl hs
  | cons c sep =>
    rw [List.append_assoc, List.cons_append, occurs_append_cons hne (hsep c List.mem_cons_self),
      occurs_append_left hne fun d hd => hsep d (List.mem_cons_of_mem c hd)]

theorem occurs_intercalate (hs : sep ≠ []) : ∀ parts : List (List Char),
    occurs word (sep.intercalate parts) = parts.any (occurs word)
  | [] => by simp [occurs_nil hne]
  | [part] => by simp
  | part :: next :: parts => by
    rw [List.intercalate_cons_cons, occurs_append_append hne hsep hs, occurs_intercalate hs (next :: parts),
      List.any_cons (a := part)]

omit hsep

/-- Trimming takes no word away that has no blank in it. -/
theorem occurs_trim (hword : ∀ c ∈ word, isBlank c = false) (cs : List Char) :
    occurs word (trim cs) = occurs word cs := by
  have hblank : ∀ {b : List Char}, allBlank b = true → ∀ c ∈ b, c ∉ word := by
    intro b hb c hc hw
    have := allBlank_iff.1 hb c hc
    rw [hword c hw] at this
    cases this
  obtain ⟨a, b, ha, hb, he⟩ := exists_append_trim cs
  conv_rhs => rw [he, occurs_append_right hne (hblank hb), occurs_append_left hne (hblank ha)]

end

/-! ## Cutting and joining -/

theorem intercalate_cons_head (sep : List Char) (c : Char) (part : List Char) (parts : List (List Char)) :
    sep.intercalate ((c :: part) :: parts) = c :: sep.intercalate (part :: parts) := by
  cases parts <;> simp [List.intercalate_cons_cons]

/-- The parts between the cuts, joined, are the text. -/
theorem intercalate_cutParts (sep : Char) : ∀ ms : List (Char × Bool),
    [sep].intercalate ((cutParts sep ms).1 :: (cutParts sep ms).2) = ms.map Prod.fst
  | [] => by simp [cutParts]
  | m :: ms => by
    have ih := intercalate_cutParts sep ms
    rw [cutParts]
    simp only
    split
    · rename_i hcut
      rw [isCut, Bool.and_eq_true, beq_iff_eq] at hcut
      rw [List.intercalate_cons_cons, ih, List.map_cons, hcut.2]
      rfl
    · rw [intercalate_cons_head, ih, List.map_cons]

/-- The last part stays if the text ends with something else than a separator or a blank. -/
theorem dropBlankLast_of_getLast? {sep c : Char} (hsep : c ≠ sep) (hc : isBlank c = false) :
    ∀ {parts : List (List Char)}, ([sep].intercalate parts).getLast? = some c → dropBlankLast parts = parts
  | [], _ => rfl
  | [part], h => by
    rw [List.intercalate_singleton] at h
    have hpart : allBlank part ≠ true := by
      intro hall
      have := allBlank_iff.1 hall c (List.mem_of_getLast? h)
      rw [hc] at this
      cases this
    rw [dropBlankLast, if_neg hpart]
  | part :: next :: parts, h => by
    rw [List.intercalate_cons_cons, List.getLast?_append, List.getLast?_append, List.getLast?_singleton] at h
    cases hlast : ([sep].intercalate (next :: parts)).getLast? with
    | none =>
      rw [hlast] at h
      exact absurd (Option.some.inj h).symm hsep
    | some d =>
      rw [hlast] at h
      rw [dropBlankLast, dropBlankLast_of_getLast? hsep hc (hlast.trans h)]

/-- **Splitting loses nothing of a text that ends with something else than a separator or a blank.** -/
theorem intercalate_splitTopLevel {sep : Char} {cs : List Char}
    (h : ∀ c, cs.getLast? = some c → c ≠ sep ∧ isBlank c = false) :
    [sep].intercalate (splitTopLevel sep cs) = cs := by
  cases hlast : cs.getLast? with
  | none =>
    rw [List.getLast?_eq_none_iff.1 hlast]
    rfl
  | some c =>
    have hjoin := intercalate_cutParts sep (marked .delimiters cs)
    rw [marked_map_fst] at hjoin
    rw [splitTopLevel]
    simp only
    rw [dropBlankLast_of_getLast? (h c hlast).1 (h c hlast).2 (by rw [hjoin, hlast]), hjoin]

namespace Selector

/-- What a selector ends with, its aliases spelled out. -/
theorem getLast?_replaceFrom : ∀ (skip : Nat) (cs : List Char),
    (cs.length ≤ skip ∧ replaceFrom aliasAt skip cs = []) ∨
      (replaceFrom aliasAt skip cs).getLast? = cs.getLast? ∨ (replaceFrom aliasAt skip cs).getLast? = some ')'
  | skip, [] => Or.inl ⟨Nat.zero_le skip, by simp [replaceFrom]⟩
  | skip + 1, c :: cs => by
    rw [replaceFrom]
    rcases getLast?_replaceFrom skip cs with ⟨hle, hnil⟩ | hlast | hlast
    · exact Or.inl ⟨Nat.succ_le_succ hle, hnil⟩
    · cases cs with
      | nil => exact Or.inl ⟨by simp, by simp [replaceFrom]⟩
      | cons d ds => exact Or.inr (Or.inl (by rw [hlast, List.getLast?_cons_cons]))
    · exact Or.inr (Or.inr hlast)
  | 0, c :: cs => by
    rw [replaceFrom]
    cases hrule : aliasAt (c :: cs) with
    | none =>
      have ih := getLast?_replaceFrom 0 cs
      simp only [List.getLast?_cons, Nat.le_zero_eq, List.length_eq_zero_iff] at ih ⊢
      rcases ih with ⟨rfl, hnil⟩ | hlast | hlast
      · simp [hnil]
      · simp [hlast]
      · simp [hlast]
    | some found =>
      have hput : found.put = aliasMeaning := by
        unfold aliasAt at hrule
        split at hrule
        · rw [← Option.some.inj hrule]
        · cases hrule
      have hend : aliasMeaning.getLast? = some ')' := by decide
      simp only [List.getLast?_append, hput, hend]
      rcases getLast?_replaceFrom found.more cs with ⟨-, hnil⟩ | hlast | hlast
      · exact Or.inr (Or.inr (by simp [hnil]))
      · cases hcs : cs.getLast? with
        | none => exact Or.inr (Or.inr (by simp [hlast, hcs]))
        | some d => exact Or.inr (Or.inl (by simp [hlast, hcs, List.getLast?_cons]))
      · exact Or.inr (Or.inr (by simp [hlast]))

theorem getLast?_expand {cs : List Char} {c : Char} (h : (expand cs).getLast? = some c) :
    cs.getLast? = some c ∨ c = ')' := by
  rw [expand, replaceAll] at h
  rcases getLast?_replaceFrom 0 cs with ⟨-, hnil⟩ | hlast | hlast
  · rw [hnil] at h
    cases h
  · exact Or.inl (hlast.symm.trans h)
  · exact Or.inr (Option.some.inj (h.symm.trans hlast))

/-- **A selector that does not end with a comma loses nothing when it is split.** -/
theorem intercalate_parts {selector : List Char} (h : (trim selector).getLast? ≠ some ',') :
    [','].intercalate (splitTopLevel ',' (expand (trim selector))) = expand (trim selector) := by
  refine intercalate_splitTopLevel fun c hc => ?_
  rcases getLast?_expand hc with hlast | rfl
  · exact ⟨fun he => h (he ▸ hlast), getLast?_of_trimmed (trim_trim selector) hlast⟩
  · decide

/-- **What does not depend on the blanks around commas is the same in both modes.** -/
theorem normalise_alike {β : Type} {view : List Char → β}
    (hjoin : ∀ compact parts, view ((separator compact).intercalate parts) = view ([','].intercalate parts))
    (htrim : ∀ parts, view ([','].intercalate (parts.map trim)) = view ([','].intercalate parts))
    {selector : List Char} (h : (trim selector).getLast? ≠ some ',') (nested compact compact' : Bool) :
    view (normalise nested compact selector) = view (normalise nested compact' selector) := by
  have hview : ∀ compact, view (normalise nested compact selector) =
      view (if nested then [','].intercalate ((splitTopLevel ',' (expand (trim selector))).map nestPart)
        else expand (trim selector)) := by
    intro compact
    unfold normalise
    cases nested with
    | true => exact hjoin compact _
    | false =>
      simp only [Bool.false_eq_true, ↓reduceIte]
      split
      · -- joined as they are, the parts would give the selector back: `h` says that none was dropped
        rw [hjoin, htrim, intercalate_parts h]
      · rfl
  rw [hview, hview]

theorem visible_normalise {selector : List Char} (h : (trim selector).getLast? ≠ some ',')
    (nested compact compact' : Bool) :
    visible (normalise nested compact selector) = visible (normalise nested compact' selector) := by
  refine normalise_alike (fun compact parts => ?_) (fun parts => ?_) h nested compact compact'
  · rw [visible_intercalate, visible_intercalate]
    cases compact <;> rfl
  · rw [visible_intercalate, visible_intercalate, List.map_map]
    congr 1
    exact List.map_congr_left fun part _ => visible_trim part

/-! ## Hovering -/

theorem hoverName_ne_nil : hoverName ≠ [] := by decide

theorem hoverName_visible : ∀ c ∈ hoverName, isBlank c = false := by
  have hall : hoverName.all (fun c => !isBlank c) = true := by decide
  intro c hc
  simpa using List.all_eq_true.1 hall c hc

/-- A list of selectors asks for hovering if one of them does. -/
theorem hasHover_intercalate (compact : Bool) (parts : List (List Char)) :
    hasHover ((separator compact).intercalate parts) = parts.any hasHover := by
  have hall : (separator compact).all (fun c => !hoverName.contains c) = true := by cases compact <;> decide
  have hne : separator compact ≠ [] := by cases compact <;> simp [separator]
  refine occurs_intercalate hoverName_ne_nil (fun c hc => ?_) hne parts
  simpa using List.all_eq_true.1 hall c hc

theorem hasHover_normalise {selector : List Char} (h : (trim selector).getLast? ≠ some ',')
    (nested compact compact' : Bool) :
    hasHover (normalise nested compact selector) = hasHover (normalise nested compact' selector) := by
  have hcomma : ∀ parts, hasHover ([','].intercalate parts) = parts.any hasHover := hasHover_intercalate true
  refine normalise_alike (fun compact parts => ?_) (fun parts => ?_) h nested compact compact'
  · rw [hasHover_intercalate, hcomma]
  · rw [hcomma, hcomma, List.any_map]
    congr 1
    exact funext fun part => occurs_trim hoverName_ne_nil hoverName_visible part

end Selector

end Offside
