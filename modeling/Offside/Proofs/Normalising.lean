import Offside.Proofs.Splitting

/-!
# Selectors written again

A selector that has been written out is written out as it is: its aliases are spelled out already
(`Selector.expand_expand`, `Selector.expand_piece`), it is cut where it was put together
(`Apart.pieces_intercalate`), and its parts have their parent reference.  And no way of writing it
makes or takes away a word that has neither a blank nor a comma in it, so whether it asks for
hovering is settled by its aliases alone (`Selector.hasHover_splitTopLevel`).  Compact output has
the same characters but for blanks and a comma at the end (`Selector.visible_top`).
-/
namespace Offside

/-! ## Blanks around parts -/

theorem uncut_trim {sep : Char} {cs : List Char} (h : Uncut sep cs) : Uncut sep (trim cs) :=
  fun m hm => h m ((marked_trim_isInfix cs).subset hm)

section

variable {sep : Char} (hsep : isBlank sep = false)

include hsep

theorem not_isCut_of_blank {w : List Char} (hw : allBlank w = true) (marks : List Bool) :
    ∀ m ∈ w.zip marks, isCut sep m = false := by
  intro m hm
  have hblank := allBlank_iff.1 hw m.1 (List.of_mem_zip hm).1
  have hne : m.1 ≠ sep := by
    intro he
    rw [he, hsep] at hblank
    cases hblank
  simp [isCut, hne]

theorem uncut_blank_append {w cs : List Char} (hw : allBlank w = true) (h : Uncut sep cs) : Uncut sep (w ++ cs) := by
  unfold Uncut
  rw [marked_blank_append hw, List.forall_mem_append]
  exact ⟨not_isCut_of_blank hsep hw _, h⟩

theorem uncut_append_blank {w cs : List Char} (hw : allBlank w = true) (h : Uncut sep cs) : Uncut sep (cs ++ w) := by
  unfold Uncut
  rw [marked_append, List.forall_mem_append]
  exact ⟨h, not_isCut_of_blank hsep hw _⟩

/-- Blanks in front belong to the first part. -/
theorem map_trim_pieces_front {w : List Char} (hw : allBlank w = true) (cs : List Char) :
    (pieces sep (w ++ cs)).map trim = (pieces sep cs).map trim := by
  have hcut := cutParts_append_of_no_cut (marked .delimiters cs) (not_isCut_of_blank hsep hw (marks .delimiters w))
  rw [pieces, marked_blank_append hw, marked, hcut, ← marked, marked_map_fst, List.map_cons, trim_append_blank hw]
  rfl

/-- Blanks behind belong to the last part. -/
theorem map_trim_pieces_back {w : List Char} (hw : allBlank w = true) (cs : List Char) :
    (pieces sep (cs ++ w)).map trim = (pieces sep cs).map trim := by
  refine pieces_induction (P := fun cs parts => (pieces sep (cs ++ w)).map trim = parts.map trim) (fun cs h => ?_)
    (fun a b hcuts ha hrun ih => ?_) cs
  · rw [pieces_of_uncut (uncut_append_blank hsep hw h), List.map_singleton, List.map_singleton, trim_append_blank_right hw]
  · rw [List.append_assoc, List.cons_append, pieces_append_cons hcuts ha hrun, List.map_cons, List.map_cons, ih]

omit hsep in
theorem map_trim_dropBlankLast : ∀ parts : List (List Char),
    (dropBlankLast parts).map trim = dropBlankLast (parts.map trim)
  | [] => rfl
  | [part] => by
    rw [List.map_singleton, dropBlankLast, dropBlankLast, allBlank_trim]
    split <;> rfl
  | part :: next :: parts => by
    have ih := map_trim_dropBlankLast (next :: parts)
    rw [dropBlankLast, List.map_cons, ih]
    rfl

/-- A trimmed text has the same parts, but for blanks around them. -/
theorem map_trim_splitTopLevel (cs : List Char) :
    (splitTopLevel sep (trim cs)).map trim = (splitTopLevel sep cs).map trim := by
  obtain ⟨a, b, ha, hb, he⟩ := exists_append_trim cs
  have hparts : (pieces sep cs).map trim = (pieces sep (trim cs)).map trim := by
    conv_lhs => rw [he, map_trim_pieces_back hsep hb, map_trim_pieces_front hsep ha]
  rw [splitTopLevel_eq, splitTopLevel_eq, map_trim_dropBlankLast, map_trim_dropBlankLast, hparts]

end

namespace Selector

/-! ## Aliases in parts -/

theorem blank_ends_alias {c : Char} (hc : isBlank c = true) : c ≠ ':' ∧ isNameChar c = false := by
  constructor
  · rintro rfl
    exact absurd hc (by decide)
  · rw [← Bool.not_eq_true]
    intro hname
    rw [not_blank_of_nameChar hname] at hc
    cases hc

theorem expand_blank_append : ∀ {w : List Char}, allBlank w = true → ∀ cs, expand (w ++ cs) = w ++ expand cs
  | [], _, _ => rfl
  | c :: w, hw, cs => by
    obtain ⟨hc, hw⟩ := allBlank_cons.1 hw
    rw [List.cons_append, expand_cons (blank_ends_alias hc).1, expand_blank_append hw cs,
      List.cons_append]

theorem expand_append_blank {w : List Char} (hw : allBlank w = true) (cs : List Char) :
    expand (cs ++ w) = expand cs ++ w := by
  cases w with
  | nil => rw [List.append_nil, List.append_nil]
  | cons c w =>
    obtain ⟨hc, hw⟩ := allBlank_cons.1 hw
    have hrest := expand_blank_append hw []
    obtain ⟨hcolon, hname⟩ := blank_ends_alias hc
    rw [List.append_nil] at hrest
    rw [expand_append_cons hcolon hname, hrest]
    simp [expand, replaceAll, replaceFrom]

theorem trim_expand (cs : List Char) : trim (expand cs) = expand (trim cs) := by
  obtain ⟨a, b, ha, hb, he⟩ := exists_append_trim cs
  have hmiddle : trim (expand (trim cs)) = expand (trim cs) := by
    refine trim_eq_self (fun c hc => ?_) (fun c hc => ?_)
    · rw [head?_expand] at hc
      exact head?_of_trimmed (trim_trim cs) hc
    · rcases getLast?_expand hc with hlast | rfl
      · exact getLast?_of_trimmed (trim_trim cs) hlast
      · decide
  conv_lhs => rw [he, expand_append_blank hb, expand_blank_append ha, trim_append_blank_right hb, trim_append_blank ha]
  exact hmiddle

theorem expand_trim {part : List Char} (hplain : expand part = part) : expand (trim part) = trim part := by
  rw [← trim_expand, hplain]

theorem expand_left {a b : List Char} {d : Char} (hcolon : d ≠ ':') (hd : isNameChar d = false)
    (h : expand (a ++ d :: b) = a ++ d :: b) : expand a = a := by
  have hnone := aliasAt_expand (a ++ d :: b)
  rw [h] at hnone
  refine replaceAll_of_none fun u hu => ?_
  rw [← aliasAt_append_cons hcolon hd u b]
  obtain ⟨front, rfl⟩ := hu
  exact hnone _ ⟨front, by simp⟩

theorem expand_right {a b : List Char} (h : expand (a ++ b) = a ++ b) : expand b = b := by
  have hnone := aliasAt_expand (a ++ b)
  rw [h] at hnone
  exact replaceAll_of_none fun u hu => hnone u (hu.trans (List.suffix_append a b))

/-- **No part of a text without aliases has one.**  A comma ends an alias as any other text does. -/
theorem expand_piece {cs : List Char} (h : expand cs = cs) : ∀ part ∈ pieces ',' cs, expand part = part := by
  refine pieces_induction (P := fun cs parts => expand cs = cs → ∀ part ∈ parts, expand part = part) (fun cs _ hcs => ?_)
    (fun a b _ _ _ ih hcs => ?_) cs h
  · simpa using hcs
  · rw [List.forall_mem_cons]
    refine ⟨expand_left (by decide) (by decide) hcs, ih ?_⟩
    rw [List.append_cons] at hcs
    exact expand_right hcs

theorem expand_part (selector : List Char) : ∀ part ∈ splitTopLevel ',' (expand selector), expand part = part :=
  fun part hp => expand_piece (expand_expand selector) part (dropBlankLast_subset _ hp)

theorem expand_intercalate (compact : Bool) : ∀ parts : List (List Char),
    expand ((separator compact).intercalate parts) = (separator compact).intercalate (parts.map expand)
  | [] => rfl
  | [part] => by simp
  | part :: next :: parts => by
    have ih := expand_intercalate compact (next :: parts)
    rw [List.map_cons, List.map_cons, List.intercalate_cons_cons, List.intercalate_cons_cons, ← List.map_cons, ← ih]
    cases compact with
    | true =>
      simp only [separator, if_true, List.append_assoc, List.singleton_append]
      exact expand_append_cons (by decide) (by decide) _ _
    | false =>
      simp only [separator, Bool.false_eq_true, if_false, List.append_assoc, List.cons_append, List.nil_append]
      rw [expand_append_cons (by decide) (by decide), expand_cons (by decide)]

/-! ## One part -/

theorem nestPart_trim (part : List Char) : nestPart (trim part) = nestPart part := by
  rw [nestPart, nestPart, trim_trim]

theorem map_nestPart_trim (parts : List (List Char)) : (parts.map trim).map nestPart = parts.map nestPart := by
  rw [List.map_map]
  exact List.map_congr_left fun part _ => nestPart_trim part

/-- A part with its parent reference. -/
def attached (part : List Char) : List Char :=
  if (trim part).contains '&' || (trim part).head? == some '@' then trim part
  else if (trim part).head? == some ':' || (trim part).head? == some '[' then '&' :: trim part
  else '&' :: ' ' :: trim part

theorem nestPart_eq {part : List Char} (hplain : expand part = part) (hpart : allBlank part = false) :
    nestPart part = attached part := by
  have hself := expand_trim hplain
  have hne : trim part ≠ [] := fun hnil => by
    rw [trim_eq_nil_iff, hpart] at hnil
    cases hnil
  unfold nestPart attached
  simp only [hself]
  generalize trim part = body at hne ⊢
  by_cases hparent : body.contains '&' = true
  · rw [if_pos hparent, hparent, Bool.true_or, if_pos rfl]
  · rw [if_neg hparent, Bool.eq_false_iff.2 hparent, Bool.false_or]
    split
    · exact absurd rfl hne
    · rfl
    · rfl
    · rfl
    · -- none of the three signs is in front
      rename_i hat hcolon hsquare
      obtain ⟨c, cs, rfl⟩ := List.exists_cons_of_ne_nil hne
      have h1 : c ≠ '@' := fun he => hat cs (by rw [he])
      have h2 : c ≠ ':' := fun he => hcolon cs (by rw [he])
      have h3 : c ≠ '[' := fun he => hsquare cs (by rw [he])
      simp [h1, h2, h3]

theorem attached_cases (part : List Char) :
    attached part = trim part ∨ attached part = '&' :: trim part ∨ attached part = '&' :: ' ' :: trim part := by
  unfold attached
  split
  · exact Or.inl rfl
  · split
    · exact Or.inr (Or.inl rfl)
    · exact Or.inr (Or.inr rfl)

theorem run_attached (part : List Char) : Nesting.outside.run (attached part) = Nesting.outside.run part := by
  rw [← Nesting.run_trim part]
  rcases attached_cases part with h | h | h <;> rw [h] <;> rfl

theorem uncut_attached {part : List Char} (h : Uncut ',' part) : Uncut ',' (attached part) := by
  have hfront : ∀ {cs : List Char}, Uncut ',' cs → Uncut ',' ('&' :: cs) :=
    fun hcs => List.forall_mem_cons.2 ⟨rfl, hcs⟩
  have hblank : Uncut ',' (' ' :: trim part) := uncut_blank_append (w := [' ']) (by decide) (by decide) (uncut_trim h)
  rcases attached_cases part with he | he | he <;> rw [he]
  · exact uncut_trim h
  · exact hfront (uncut_trim h)
  · exact hfront hblank

section

variable {part : List Char}

theorem expand_attached (hplain : expand part = part) : expand (attached part) = attached part := by
  have hself := expand_trim hplain
  rcases attached_cases part with h | h | h <;> rw [h]
  · exact hself
  · rw [expand_cons (by decide), hself]
  · rw [expand_cons (by decide), expand_cons (by decide), hself]

variable (hpart : allBlank part = false)

include hpart

theorem trim_attached : trim (attached part) = attached part := by
  have hlast : ∀ front c, (front ++ trim part).getLast? = some c → isBlank c = false := by
    intro front c hc
    rw [getLast?_append_trim hpart] at hc
    exact getLast?_of_trimmed (trim_trim part) hc
  rcases attached_cases part with h | h | h <;> rw [h]
  · exact trim_trim part
  · exact trim_eq_self (fun c hc => by cases hc; decide) (hlast ['&'])
  · exact trim_eq_self (fun c hc => by cases hc; decide) (hlast ['&', ' '])

theorem allBlank_attached : allBlank (attached part) = false := by
  have hself : allBlank (trim part) = false := by rwa [allBlank_trim]
  rcases attached_cases part with h | h | h <;> rw [h]
  · exact hself
  · rfl
  · rfl

theorem attached_attached : attached (attached part) = attached part := by
  -- with the reference in front there is one inside, and nothing is added
  have hfront : ∀ {cs : List Char}, attached part = '&' :: cs → attached (attached part) = attached part := by
    intro cs he
    have htrim := trim_attached hpart
    rw [he] at htrim ⊢
    simp [attached, htrim]
  rcases attached_cases part with h | h | h
  · have htrim : attached (trim part) = attached part := by simp [attached]
    rw [h, htrim, h]
  · exact hfront h
  · exact hfront h

end

/-! ## A list of parts -/

theorem cuts_comma : Cuts ',' := rfl

theorem gap_intercalate (c : Char) (gap : List Char) : ∀ {parts : List (List Char)}, parts ≠ [] →
    gap ++ (c :: gap).intercalate parts = [c].intercalate (parts.map (gap ++ ·))
  | [], hne => absurd rfl hne
  | [part], _ => by simp
  | part :: next :: parts, _ => by
    have ih := gap_intercalate c gap (List.cons_ne_nil next parts)
    rw [List.map_cons, List.map_cons, List.intercalate_cons_cons, List.intercalate_cons_cons, ← List.map_cons, ← ih]
    simp

theorem dropBlankLast_of_visible : ∀ {parts : List (List Char)}, (∀ part ∈ parts, allBlank part = false) →
    dropBlankLast parts = parts
  | [], _ => rfl
  | [part], h => by rw [dropBlankLast, h part List.mem_cons_self, if_neg (by simp)]
  | part :: next :: parts, h => by
    rw [dropBlankLast, dropBlankLast_of_visible fun p hp => h p (List.mem_cons_of_mem part hp)]

/-- **A list of parts is cut where it was put together.**  In front of the list the blank of the separator would be a
part of the first part, as it is of all others. -/
theorem split_intercalate (compact : Bool) {parts : List (List Char)} (h : Apart ',' parts)
    (hvisible : ∀ part ∈ parts, allBlank part = false) :
    (splitTopLevel ',' ((separator compact).intercalate parts)).map trim = parts.map trim := by
  obtain ⟨gap, hgap, hsep⟩ : ∃ gap, allBlank gap = true ∧ separator compact = ',' :: gap := by
    cases compact
    · exact ⟨[' '], rfl, rfl⟩
    · exact ⟨[], rfl, rfl⟩
  by_cases hne : parts = []
  · rw [hne]
    rfl
  · have hcomma : isBlank ',' = false := by decide
    have hapart : Apart ',' (parts.map (gap ++ ·)) := by
      refine h.map (fun part hp => uncut_blank_append hcomma hgap hp) fun part => ?_
      rw [Nesting.run_append, Nesting.run_of_blank hgap fun _ h => by cases h]
    have hpieces : (pieces ',' ((separator compact).intercalate parts)).map trim = parts.map trim := by
      rw [hsep, ← map_trim_pieces_front hcomma hgap, gap_intercalate _ _ hne,
        hapart.pieces_intercalate cuts_comma (by simpa using hne), List.map_map]
      exact List.map_congr_left fun part _ => trim_append_blank hgap part
    rw [splitTopLevel_eq, map_trim_dropBlankLast, hpieces, dropBlankLast_of_visible]
    rw [List.forall_mem_map]
    exact fun part hp => by rw [allBlank_trim, hvisible part hp]

theorem apart_splitTopLevel (sep : Char) (cs : List Char) : Apart sep (splitTopLevel sep cs) := by
  refine (apart_pieces sep cs).of_isPrefix ?_
  rcases splitTopLevel_cases sep cs with ⟨he, -⟩ | ⟨tail, -, he⟩
  · rw [he]
  · exact ⟨[tail], he.symm⟩

/-- A nested selector is written part by part, whatever blanks are around it. -/
theorem normalise_nested (compact : Bool) (selector : List Char) : normalise true compact selector =
    (separator compact).intercalate ((splitTopLevel ',' (expand selector)).map nestPart) := by
  unfold normalise
  simp only [if_true]
  rw [← trim_expand, ← map_nestPart_trim, map_trim_splitTopLevel (by decide), map_nestPart_trim]

/-- **A nested selector is written part by part, and writing it again changes nothing.**  If it has no blank part, the
parts of what is written are its own, each with its parent reference. -/
theorem normalise_parts {selector : List Char}
    (h : ∀ part ∈ splitTopLevel ',' (expand selector), allBlank part = false) (compact : Bool) :
    (splitTopLevel ',' (normalise true compact selector)).map trim = (splitTopLevel ',' (expand selector)).map attached ∧
      normalise true compact (normalise true compact selector) = normalise true compact selector := by
  have hplain := expand_part selector
  have hwritten : normalise true compact selector =
      (separator compact).intercalate ((splitTopLevel ',' (expand selector)).map attached) := by
    rw [normalise_nested]
    exact congrArg _ (List.map_congr_left fun part hp => nestPart_eq (hplain part hp) (h part hp))
  have hapart := (apart_splitTopLevel ',' (expand selector)).map (fun _ => uncut_attached) run_attached
  generalize splitTopLevel ',' (expand selector) = parts at h hplain hwritten hapart ⊢
  have htrim : (parts.map attached).map trim = parts.map attached := by
    rw [List.map_map]
    exact List.map_congr_left fun part hp => trim_attached (h part hp)
  have hsplit := split_intercalate compact hapart (List.forall_mem_map.2 fun part hp => allBlank_attached (h part hp))
  rw [htrim, ← hwritten] at hsplit
  refine ⟨hsplit, ?_⟩
  have hexpand : expand (normalise true compact selector) = normalise true compact selector := by
    rw [hwritten, expand_intercalate, List.map_map]
    exact congrArg _ (List.map_congr_left fun part hp => expand_attached (hplain part hp))
  have hagain : (parts.map attached).map nestPart = parts.map attached := by
    rw [List.map_map]
    refine List.map_congr_left fun part hp => ?_
    exact (nestPart_eq (expand_attached (hplain part hp)) (allBlank_attached (h part hp))).trans
      (attached_attached (h part hp))
  calc normalise true compact (normalise true compact selector)
      = (separator compact).intercalate ((splitTopLevel ',' (normalise true compact selector)).map nestPart) := by
        rw [normalise_nested, hexpand]
    _ = (separator compact).intercalate (parts.map attached) := by rw [← map_nestPart_trim, hsplit, hagain]
    _ = normalise true compact selector := hwritten.symm

/-- Quotes and brackets, one never closed, around commas, an alias, and a part with its parent reference inside. -/
theorem normalise_parts_brackets :
    let selector := " a:hocus , [b=','],&.c, @d, (e,f".toList
    (∀ part ∈ splitTopLevel ',' (expand selector), allBlank part = false) ∧
      normalise true false selector =
        "& a:is(:hover, :focus-within), &[b=','], &.c, @d, & (e,f".toList ∧
      (splitTopLevel ',' (normalise true false selector)).map trim = (splitTopLevel ',' (expand selector)).map attached ∧
      normalise true false (normalise true false selector) = normalise true false selector :=
  have h := by decide
  ⟨h, by decide, normalise_parts h false⟩

/-! ## Compacted lists

Compact output puts the parts together again, and a last part that is blank is none.  So a list that ends with a comma
of its own loses it, but not a list of one part: that is written as it is. -/

/-- The selector ends with a comma at top level that is not its only one. -/
def trailing (selector : List Char) : Bool :=
  (marked .delimiters (expand (trim selector))).getLast? == some (',', true) && 1 < cutCount ',' (expand (trim selector))

theorem trailing_iff {selector : List Char} : trailing selector = true ↔
    (pieces ',' (expand (trim selector))).getLast? = some [] ∧ 2 < (pieces ',' (expand (trim selector))).length := by
  rw [trailing, Bool.and_eq_true, beq_iff_eq, decide_eq_true_iff, getLast?_pieces_eq_nil, length_pieces]
  constructor
  · rintro ⟨hlast, hcount⟩
    exact ⟨Or.inr hlast, by omega⟩
  · rintro ⟨hnil | hlast, hcount⟩
    · rw [hnil] at hcount
      exact absurd hcount (by decide)
    · exact ⟨hlast, by omega⟩

theorem visible_map_trim (parts : List (List Char)) :
    visible ([','].intercalate (parts.map trim)) = visible ([','].intercalate parts) := by
  rw [visible_intercalate, visible_intercalate, List.map_map]
  exact congrArg _ (List.map_congr_left fun part _ => visible_trim part)

section

variable {selector tail : List Char} {parts : List (List Char)} (hne : parts ≠ []) (htail : allBlank tail = true)
  (hpieces : pieces ',' (expand (trim selector)) = parts ++ [tail])

include hne htail hpieces

theorem visible_of_pieces : visible (expand (trim selector)) = visible ([','].intercalate parts) ++ [','] := by
  have hjoin := intercalate_pieces ',' (expand (trim selector))
  rw [hpieces, intercalate_concat _ _ hne] at hjoin
  rw [← hjoin, visible_append, visible_append, visible_eq_nil htail, List.append_nil]
  rfl

/-- There is nothing behind the last comma, not even a blank. -/
theorem eq_nil_of_pieces : tail = [] := by
  have hjoin := intercalate_pieces ',' (expand (trim selector))
  rw [hpieces, intercalate_concat _ _ hne] at hjoin
  have htrim : trim (expand (trim selector)) = expand (trim selector) := by rw [trim_expand, trim_trim]
  rcases List.eq_nil_or_concat tail with rfl | ⟨front, last, rfl⟩
  · rfl
  · rw [List.concat_eq_append] at htail hjoin
    have hlast : (expand (trim selector)).getLast? = some last := by
      rw [← hjoin, ← List.append_assoc, List.getLast?_concat]
    have hblank := allBlank_iff.1 htail last (by simp)
    rw [getLast?_of_trimmed htrim hlast] at hblank
    cases hblank

end

theorem normalise_top_compact (selector : List Char) : normalise false true selector =
    if 1 < (splitTopLevel ',' (expand (trim selector))).length then
      [','].intercalate ((splitTopLevel ',' (expand (trim selector))).map trim)
    else expand (trim selector) := by
  simp [normalise, separator]

theorem visible_top (selector : List Char) : visible (expand (trim selector)) =
    visible (normalise false true selector) ++ if trailing selector then [','] else [] := by
  have hends := @trailing_iff selector
  rw [normalise_top_compact]
  rcases splitTopLevel_cases ',' (expand (trim selector)) with ⟨he, last, hlast, hvisible⟩ | ⟨tail, htail, he⟩
  · -- nothing is dropped
    have hno : trailing selector ≠ true := by
      intro h
      rw [hends, hlast] at h
      rw [Option.some.inj h.1] at hvisible
      cases hvisible
    rw [if_neg hno, List.append_nil]
    split
    · rw [visible_map_trim, he, intercalate_pieces]
    · rfl
  · have hlength := congrArg List.length he
    rw [List.length_append, List.length_singleton] at hlength
    split
    · have hne : splitTopLevel ',' (expand (trim selector)) ≠ [] := List.ne_nil_of_length_pos (by omega)
      have hyes : trailing selector = true :=
        hends.2 ⟨by rw [he, List.getLast?_concat, eq_nil_of_pieces hne htail he], by omega⟩
      rw [if_pos hyes, visible_map_trim, visible_of_pieces hne htail he]
    · -- one part at most: the selector is written as it is
      have hno : trailing selector ≠ true := by
        intro h
        have := (hends.1 h).2
        omega
      rw [if_neg hno, List.append_nil]

theorem visible_nested (compact : Bool) (selector : List Char) : visible (normalise true compact selector) =
    [','].intercalate (((splitTopLevel ',' (expand selector)).map nestPart).map visible) := by
  rw [normalise_nested, visible_intercalate]
  cases compact <;> rfl

/-- **Compact output changes nothing but blanks in a selector**, unless it stands at the top, ends with a comma and has
others: then it is without that comma. -/
theorem normalise_modes (nested : Bool) (selector : List Char) :
    visible (normalise nested false selector) =
      visible (normalise nested true selector) ++ if !nested && trailing selector then [','] else [] := by
  cases nested with
  | true =>
    rw [visible_nested, visible_nested]
    exact (List.append_nil _).symm
  | false =>
    rw [Bool.not_false, Bool.true_and, ← visible_top]
    simp [normalise]

/-- **A comma at the end is more than a blank**, and compact output leaves it out. -/
theorem normalise_drops_comma :
    normalise false false "a, b,".toList = "a, b,".toList ∧ normalise false true "a, b,".toList = "a,b".toList ∧
      visible (normalise false false "a, b,".toList) ≠ visible (normalise false true "a, b,".toList) := by
  decide

/-! ## Hovering -/

theorem hasHover_of_blank {cs : List Char} (h : allBlank cs = true) : hasHover cs = false := by
  rw [hasHover, ← occurs_trim hoverName_ne_nil hoverName_visible, trim_eq_nil_iff.2 h, occurs_nil hoverName_ne_nil]

/-- A selector asks for hovering if one of its parts does; a part that is dropped is blank. -/
theorem hasHover_splitTopLevel (cs : List Char) : (splitTopLevel ',' cs).any hasHover = hasHover cs := by
  have hjoin : hasHover ([','].intercalate (pieces ',' cs)) = (pieces ',' cs).any hasHover := hasHover_intercalate true _
  rw [intercalate_pieces] at hjoin
  rw [hjoin]
  rcases splitTopLevel_cases ',' cs with ⟨he, -⟩ | ⟨tail, htail, he⟩
  · rw [he]
  · rw [he, List.any_append, List.any_cons, hasHover_of_blank htail]
    simp

theorem hasHover_trim (cs : List Char) : hasHover (trim cs) = hasHover cs :=
  occurs_trim hoverName_ne_nil hoverName_visible cs

theorem hasHover_nestPart {part : List Char} (hplain : expand part = part) : hasHover (nestPart part) = hasHover part := by
  cases hpart : allBlank part with
  | true =>
    have hnil : nestPart part = [] := by
      rw [nestPart, trim_eq_nil_iff.2 hpart]
      rfl
    rw [hnil, hasHover_of_blank hpart]
    rfl
  | false =>
    have hparent : '&' ∉ hoverName := by decide
    have hblank : ' ' ∉ hoverName := by decide
    have hfront : ∀ {c : Char}, c ∉ hoverName → ∀ cs, hasHover (c :: cs) = hasHover cs := by
      intro c hc cs
      have hsep : ∀ d ∈ [c], d ∉ hoverName := by simpa using hc
      exact occurs_append_left hoverName_ne_nil hsep cs
    rw [nestPart_eq hplain hpart]
    rcases attached_cases part with h | h | h <;> rw [h]
    · exact hasHover_trim part
    · rw [hfront hparent, hasHover_trim]
    · rw [hfront hparent, hfront hblank, hasHover_trim]

/-- **Whether a selector asks for hovering is settled by its aliases**, wherever it stands and however it is written. -/
theorem hover_normalise (selector : List Char) :
    (∀ nested compact, hasHover (normalise nested compact selector) = hasHover (expand selector)) ∧
      expand (expand selector) = expand selector := by
  refine ⟨fun nested compact => ?_, expand_expand selector⟩
  have hexpanded : hasHover (expand (trim selector)) = hasHover (expand selector) := by rw [← trim_expand, hasHover_trim]
  cases nested with
  | true =>
    rw [normalise_nested, hasHover_intercalate, List.any_map, ← hasHover_splitTopLevel (expand selector), Bool.eq_iff_iff,
      List.any_eq_true, List.any_eq_true]
    refine exists_congr fun part => and_congr_right fun hp => ?_
    rw [Function.comp_apply, hasHover_nestPart (expand_part selector part hp)]
  | false =>
    unfold normalise
    simp only [Bool.false_eq_true, if_false]
    split
    · rw [hasHover_intercalate, List.any_map, ← hexpanded, ← hasHover_splitTopLevel (expand (trim selector))]
      exact congrArg _ (funext hasHover_trim)
    · exact hexpanded

end Selector

end Offside
