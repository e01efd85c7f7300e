import Mathlib.Data.List.Forall2
import Offside.Proofs.Strings

/-!
# Strings from the source to the output

A string whose quotes both outlive stripping outlives it whole, unless a comment begins in it, and then
stands in one logical line (`exists_logical_of_string`).  Each declaration and each rule is written on a
line of its own, in the order of the source, and what that line makes of a string depends on the string
alone (`evaluate_shown`).
-/
namespace Offside

/-! ## Stripping -/

section

variable {α : Type} {char : α → Char} {first last : α} {inner back : List α}

theorem replaceFrom_of_none {rule : List α → Option (Found α)} {b : List α} : ∀ {a : List α},
    (∀ u, u <:+ a → u ≠ [] → rule (u ++ b) = none) → replaceFrom rule 0 (a ++ b) = a ++ replaceFrom rule 0 b
  | [], _ => rfl
  | c :: a, h => by
    have ih := replaceFrom_of_none fun u hu => h u (hu.trans (List.suffix_cons c a))
    have hc : rule (c :: (a ++ b)) = none := h (c :: a) List.suffix_rfl (by simp)
    rw [List.cons_append, replaceFrom, hc]
    simp [ih]

/-- A stretch in which no block comment begins is kept whole if its first character is. -/
theorem replaceFrom_blockAt_keeps {rest : List α}
    (hnone : ∀ u, u <:+ first :: rest → u ≠ [] → blockAt char (u ++ back) = none) : ∀ {front : List α} {skip : Nat},
    (front ++ first :: rest ++ back).Nodup → first ∈ replaceFrom (blockAt char) skip (front ++ first :: rest ++ back) →
      ∃ a b, replaceFrom (blockAt char) skip (front ++ first :: rest ++ back) = a ++ first :: rest ++ b
  | [], 0, _, _ => ⟨[], _, replaceFrom_of_none hnone⟩
  | [], skip + 1, hn, hm => by
    have hin := (replaceFrom_blockAt_sublist char skip (rest ++ back)).subset hm
    exact absurd hin (List.nodup_cons.1 hn).1
  | c :: front, skip + 1, hn, hm => by
    simp only [List.cons_append, replaceFrom] at hn hm ⊢
    exact replaceFrom_blockAt_keeps hnone (List.nodup_cons.1 hn).2 hm
  | c :: front, 0, hn, hm => by
    have hn' := List.nodup_cons.1 hn
    have hne : first ≠ c := by
      rintro rfl
      exact hn'.1 (by simp)
    simp only [List.cons_append, replaceFrom] at hm ⊢
    cases hrule : blockAt char (c :: (front ++ first :: rest ++ back)) with
    | some found =>
      simp only [hrule, put_blockAt char hrule, List.nil_append] at hm ⊢
      exact replaceFrom_blockAt_keeps hnone hn'.2 hm
    | none =>
      simp only [hrule, List.mem_cons, hne, false_or] at hm ⊢
      obtain ⟨a, b, he⟩ := replaceFrom_blockAt_keeps hnone hn'.2 hm
      exact ⟨c :: a, b, by rw [he]; rfl⟩

theorem dropLineComments_inside_subset : ∀ {cs : List α} (free : Bool), (∀ c ∈ cs, char c ≠ '\n') →
    dropLineComments char free true (cs ++ back) ⊆ back
  | [], free, _ => (dropLineComments_sublist char free true back).subset
  | c :: cs, free, h => by
    rw [List.forall_mem_cons] at h
    rw [List.cons_append, dropLineComments, if_neg (by simpa using h.1), if_pos rfl]
    exact dropLineComments_inside_subset false h.2

/-- A stretch of a line, read outside a comment, is kept whole if its last character is. -/
theorem dropLineComments_keeps_to (hlast : last ∉ back) : ∀ {cs : List α} (free : Bool),
    (∀ c ∈ cs, char c ≠ '\n') → cs.getLast? = some last → cs.Nodup →
      last ∈ dropLineComments char free false (cs ++ back) →
        ∃ b, dropLineComments char free false (cs ++ back) = cs ++ b
  | [], _, _, hend, _, _ => by cases hend
  | c :: cs, free, h, hend, hn, hm => by
    rw [List.forall_mem_cons] at h
    rw [List.cons_append, dropLineComments, if_neg (by simpa using h.1), if_neg (by simp)] at hm ⊢
    split at hm
    · exact absurd (dropLineComments_inside_subset false h.2 hm) hlast
    · rename_i hslash
      rw [if_neg hslash]
      cases cs with
      | nil => exact ⟨_, rfl⟩
      | cons e cs =>
        rw [List.getLast?_cons_cons] at hend
        have hne : last ≠ c := by
          rintro rfl
          exact (List.nodup_cons.1 hn).1 (List.mem_of_getLast? hend)
        rw [List.mem_cons, or_iff_right hne] at hm
        obtain ⟨b, hb⟩ := dropLineComments_keeps_to hlast _ h.2 hend (List.nodup_cons.1 hn).2 hm
        exact ⟨b, by rw [hb]; rfl⟩

theorem dropLineComments_cons (char : α → Char) (free inside : Bool) (c : α) (cs : List α) : ∃ f i,
    dropLineComments char free inside (c :: cs) = c :: dropLineComments char f i cs ∨
      dropLineComments char free inside (c :: cs) = dropLineComments char f i cs := by
  rw [dropLineComments]
  split
  · exact ⟨_, _, Or.inl rfl⟩
  · split
    · exact ⟨_, _, Or.inr rfl⟩
    · split
      · exact ⟨_, _, Or.inr rfl⟩
      · exact ⟨_, _, Or.inl rfl⟩

/-- A stretch of a line is kept whole if its first and its last character are. -/
theorem dropLineComments_keeps {cs : List α} (hfirst : cs.head? = some first) (hend : cs.getLast? = some last)
    (h : ∀ c ∈ cs, char c ≠ '\n') : ∀ {front : List α} (free inside : Bool), (front ++ cs ++ back).Nodup →
      first ∈ dropLineComments char free inside (front ++ cs ++ back) →
      last ∈ dropLineComments char free inside (front ++ cs ++ back) →
        ∃ a b, dropLineComments char free inside (front ++ cs ++ back) = a ++ cs ++ b
  | [], free, inside, hn, hf, hl => by
    rw [List.nil_append] at hn hf hl ⊢
    obtain ⟨hcs, -, hdisjoint⟩ := List.nodup_append.1 hn
    cases inside with
    | true =>
      have hin := dropLineComments_inside_subset free h hf
      exact absurd rfl (hdisjoint first (List.mem_of_head? hfirst) first hin)
    | false =>
      have hback : last ∉ back := fun hm => hdisjoint last (List.mem_of_getLast? hend) last hm rfl
      obtain ⟨b, hb⟩ := dropLineComments_keeps_to hback free h hend hcs hl
      exact ⟨[], b, by rw [hb]; rfl⟩
  | c :: front, free, inside, hn, hf, hl => by
    have hn' := List.nodup_cons.1 hn
    have hne : ∀ {x}, x ∈ cs → x ≠ c := by
      rintro x hx rfl
      exact hn'.1 (by simp [hx])
    rw [List.cons_append, List.cons_append] at hf hl ⊢
    obtain ⟨f, i, hdrop | hdrop⟩ := dropLineComments_cons char free inside c (front ++ cs ++ back)
    · rw [hdrop, List.mem_cons] at hf hl
      obtain ⟨a, b, he⟩ := dropLineComments_keeps hfirst hend h f i hn'.2
        (hf.resolve_left (hne (List.mem_of_head? hfirst))) (hl.resolve_left (hne (List.mem_of_getLast? hend)))
      exact ⟨c :: a, b, by rw [hdrop, he]; rfl⟩
    · rw [hdrop] at hf hl ⊢
      exact dropLineComments_keeps hfirst hend h f i hn'.2 hf hl

end

theorem blockAt_of_not_isInfix {char : Placed → Char} {q back : List Placed} {d : Char} (hd : d ≠ '/')
    (hend : (q.map char).getLast? = some d) (h : ¬Comment.opener <:+: q.map char) :
    ∀ u, u <:+ q → u ≠ [] → blockAt char (u ++ back) = none := by
  intro u hu hne
  match u, hne with
  | [c], _ =>
    obtain ⟨t, rfl⟩ := hu
    have hc : char c = d := by simpa using hend
    cases back with
    | nil => rfl
    | cons e back => simp [blockAt, hc, hd]
  | c :: e :: u, _ =>
    have hnot : ¬(char c = '/' ∧ char e = '*') := by
      rintro ⟨h1, h2⟩
      obtain ⟨t, rfl⟩ := hu
      exact h ⟨t.map char, u.map char, by simp [Comment.opener, h1, h2]⟩
    simp only [List.cons_append, blockAt, Bool.and_eq_true, beq_iff_eq]
    rw [if_neg hnot]

/-- **Stripping keeps a string whole**, if it keeps both its quotes and no block comment begins in it. -/
theorem kept_string {source : List Char} {front q back : List Placed} {first last : Placed}
    (hplace : place source = front ++ q ++ back) (hfirst : q.head? = some first) (hlast : q.getLast? = some last)
    (hslash : last.1 ≠ '/') (hbreak : '\n' ∉ q.map Prod.fst) {strip : Bool}
    (hopener : strip = true → ¬Comment.opener <:+: q.map Prod.fst) (hf : first ∈ kept strip source)
    (hl : last ∈ kept strip source) : ∃ a b, kept strip source = a ++ q ++ b := by
  cases strip with
  | false => exact ⟨front, back, hplace⟩
  | true =>
    have hplaces : (place source).Nodup := by
      have hascending := (List.pairwise_append.1 (kept_ascending false source)).1
      exact (hascending.imp Nat.ne_of_lt).of_map Prod.snd fun a b hne he => hne (by rw [he])
    have hchars : ∀ c ∈ q, c.1 ≠ '\n' := fun c hc he => hbreak (he ▸ List.mem_map_of_mem hc)
    have hblocks := replaceFrom_blockAt_sublist Prod.fst 0 (place source)
    have hlines := dropLineComments_sublist Prod.fst true false (dropBlocks Prod.fst (place source))
    -- no block comment takes anything out of the string
    obtain ⟨rest, rfl⟩ : ∃ rest, q = first :: rest := by
      cases q with
      | nil => cases hfirst
      | cons c rest => exact ⟨rest, by rw [Option.some.inj hfirst]⟩
    obtain ⟨a, b, hab⟩ : ∃ a b, dropBlocks Prod.fst (place source) = a ++ first :: rest ++ b := by
      unfold dropBlocks replaceAll
      rw [hplace] at hplaces ⊢
      refine replaceFrom_blockAt_keeps ?_ hplaces ?_
      · exact blockAt_of_not_isInfix hslash (by rw [List.getLast?_map, hlast]; rfl) (hopener rfl)
      · rw [← hplace]
        exact hlines.subset hf
    -- and no line comment either
    have hnodup : (a ++ first :: rest ++ b).Nodup := by
      rw [← hab]
      exact hplaces.sublist hblocks
    unfold kept stripComments strip at hf hl ⊢
    rw [hab] at hf hl ⊢
    exact dropLineComments_keeps rfl hlast hchars true false hnodup hf hl

/-! ## Lines -/

theorem splitLines_append {stop : Nat} {b : List Placed} : ∀ {q : List Placed}, '\n' ∉ q.map Prod.fst →
    ∃ line lines, splitLines stop (q ++ b) = line :: lines ∧ q.map Prod.fst <+: line.text
  | [], _ => by
    cases h : splitLines stop b with
    | nil => exact absurd h (splitLines_ne_nil stop b)
    | cons line lines => exact ⟨line, lines, h, List.nil_prefix⟩
  | (c, i) :: q, h => by
    rw [List.map_cons, List.mem_cons, not_or] at h
    obtain ⟨line, lines, he, hp⟩ := @splitLines_append stop b q h.2
    obtain ⟨line', lines', he', hcons⟩ := splitLines_cons_of_ne stop (Ne.symm h.1) i (q ++ b)
    rw [he] at he'
    obtain ⟨rfl, rfl⟩ := List.cons.inj he'
    exact ⟨_, _, hcons, List.cons_prefix_cons.2 ⟨rfl, hp⟩⟩

/-- What has no break in it stands on one line. -/
theorem exists_line_of_isInfix {stop : Nat} {q b : List Placed} (h : '\n' ∉ q.map Prod.fst) : ∀ a : List Placed,
    ∃ line ∈ splitLines stop (a ++ q ++ b), q.map Prod.fst <:+: line.text
  | [] => by
    obtain ⟨line, lines, he, hp⟩ := @splitLines_append stop b q h
    exact ⟨line, by rw [List.nil_append, he]; exact List.mem_cons_self, hp.isInfix⟩
  | (c, i) :: a => by
    obtain ⟨line, hl, hi⟩ := exists_line_of_isInfix h a
    rw [List.cons_append, List.cons_append]
    by_cases hc : c = '\n'
    · subst hc
      rw [splitLines_cons_break]
      exact ⟨line, List.mem_cons_of_mem _ hl, hi⟩
    · obtain ⟨line', lines', he, hcons⟩ := splitLines_cons_of_ne stop hc i (a ++ q ++ b)
      rw [he] at hl
      rw [hcons]
      rcases List.mem_cons.1 hl with rfl | hl
      · exact ⟨_, List.mem_cons_self, hi.trans (List.suffix_cons c _).isInfix⟩
      · exact ⟨line, List.mem_cons_of_mem _ hl, hi⟩

theorem isInfix_trim {d : Char} (hd : Nesting.isQuote d = true) {body cs : List Char} (h : d :: (body ++ [d]) <:+: cs) :
    d :: (body ++ [d]) <:+: trim cs := by
  obtain ⟨a, b, rfl⟩ := h
  rw [trim_around hd]
  exact List.infix_append _ _ _

theorem isInfix_joinText {d : Char} (hd : Nesting.isQuote d = true) {body text : List Char}
    (h : d :: (body ++ [d]) <:+: text) (hcomma : text.getLast? = some ',') (next : List Char) :
    d :: (body ++ [d]) <:+: joinText text next := by
  obtain ⟨a, b, rfl⟩ := h
  rcases List.eq_nil_or_concat b with rfl | ⟨b, c, rfl⟩
  · have hdc : d = ',' := by simpa [List.getLast?_append, List.getLast?_cons] using hcomma
    rw [hdc] at hd
    cases hd
  · have he : (a ++ d :: (body ++ [d]) ++ b.concat c).dropLast = a ++ d :: body ++ d :: b := by
      rw [List.concat_eq_append, ← List.append_assoc, List.dropLast_concat]
      simp
    rw [joinText, he, trimRight_append_cons (not_blank_of_quote hd)]
    exact ⟨a, trimRight b ++ [',', ' '] ++ next, by simp⟩

theorem Continued.isInfix {d : Char} (hd : Nesting.isQuote d = true) {body text result : List Char}
    {texts : List (List Char)} (h : Continued text texts result)
    (hin : ∃ t ∈ text :: texts, d :: (body ++ [d]) <:+: t) : d :: (body ++ [d]) <:+: result := by
  induction h with
  | done => simpa using hin
  | @more text next result texts hcomma _ ih =>
    refine ih ?_
    obtain ⟨t, ht, hq⟩ := hin
    rw [List.mem_cons, List.mem_cons] at ht
    rcases ht with rfl | rfl | ht
    · exact ⟨_, List.mem_cons_self, isInfix_joinText hd hq hcomma next⟩
    · exact ⟨_, List.mem_cons_self, hq.trans (List.suffix_append _ _).isInfix⟩
    · exact ⟨t, List.mem_cons_of_mem _ ht, hq⟩

/-- A string that stands on a line stands in a logical line. -/
theorem Grouped.exists_isInfix {lines : List Line} {logical : List LogicalLine} (h : Grouped lines logical) {d : Char}
    (hd : Nesting.isQuote d = true) {body : List Char} {line : Line} (hl : line ∈ lines)
    (hq : d :: (body ++ [d]) <:+: line.text) : ∃ l ∈ logical, d :: (body ++ [d]) <:+: l.text := by
  obtain ⟨groups, hflat, hgroups⟩ := h
  have hvisible : allBlank line.text = false := by
    rw [Bool.eq_false_iff]
    intro hall
    have := allBlank_iff.1 hall d (hq.subset List.mem_cons_self)
    rw [not_blank_of_quote hd] at this
    cases this
  have hmem : line ∈ groups.flatMap fun g => g.1 :: g.2 := by
    rw [hflat, List.mem_filter]
    exact ⟨hl, by simp [hvisible]⟩
  obtain ⟨g, hg, hin⟩ := List.mem_flatMap.1 hmem
  obtain ⟨i, hi, rfl⟩ := List.mem_iff_getElem.1 hg
  have hcontinued := hgroups.get hi (by rw [← hgroups.length_eq]; exact hi)
  refine ⟨_, List.getElem_mem _, hcontinued.isInfix hd ⟨trim line.text, ?_, isInfix_trim hd hq⟩⟩
  rcases List.mem_cons.1 hin with rfl | hin
  · exact List.mem_cons_self
  · exact List.mem_cons_of_mem _ (List.mem_map_of_mem hin)

/-! ## Lines of statements -/

/-- Whether a statement is written on a line of its own that shows its value or its selector. -/
def Statement.shown : Statement → Bool
  | .leaf (.declare _ _ _) => true
  | .heading (.rule _ _) => true
  | _ => false

theorem sublistForall₂_append {α β : Type} {R : α → β → Prop} {as as' : List α} {bs bs' : List β}
    (h : List.SublistForall₂ R as bs) (h' : List.SublistForall₂ R as' bs') :
    List.SublistForall₂ R (as ++ as') (bs ++ bs') := by
  rw [List.sublistForall₂_iff] at h h' ⊢
  obtain ⟨l, hl, hs⟩ := h
  obtain ⟨l', hl', hs'⟩ := h'
  exact ⟨l ++ l', List.rel_append hl hl', hs.append hs'⟩

section

variable {o : Options} {R : Statement → List Char → Prop}
  (hdeclare : ∀ (env : Env) (depth : Nat) (property value : List Char) (comment : Option Comment),
    R (.leaf (.declare property value comment)) (o.indentAt depth ++ o.entry env property value comment))
  (hrule : ∀ (nested : Bool) (depth : Nat) (selector : List Char) (comment : Option Comment),
    R (.heading (.rule selector comment))
      (o.indentAt depth ++ o.withComment (Selector.normalise nested o.compact selector) comment ++ o.opening))

include hdeclare in
theorem evaluateLeaf_shown (depth : Nat) (nested : Bool) (env : Env) (item : Leaf) :
    List.SublistForall₂ R ([Statement.leaf item].filter Statement.shown) (evaluateLeaf o depth nested env item).lines := by
  rw [(evaluateLeaf_eq o depth nested env item).1]
  cases item with
  | declare property value comment => exact .cons (hdeclare env depth property value comment) .nil
  | define name value constant comment => exact .nil
  | remark comment => exact .nil

include hrule in
theorem openLines_shown (depth : Nat) (nested : Bool) (env : Env) (heading : Heading) :
    List.SublistForall₂ R ([Statement.heading heading].filter Statement.shown)
      (openLines o depth (o.block env.substitute nested heading)) := by
  rw [Options.block_eq, openLines]
  cases heading with
  | rule selector comment =>
    exact @sublistForall₂_append _ _ R [] [_] _ [_] .nil (.cons (hrule nested _ selector comment) .nil)
  | atRule name params comment => exact .nil

include hdeclare hrule

/-- **Every declaration and every rule has its line**, in the order of the source. -/
theorem evaluate_shown : ∀ (f : Sheet) (k depth : Nat) (nested : Bool) (env : Env),
    List.SublistForall₂ R (((f.preorderFrom k).map Prod.snd).filter Statement.shown) (evaluate o depth nested env f).lines
  | .nil, _, _, _, _ => .nil
  | .leaf item rest, k, depth, nested, env => by
    have hitem := evaluateLeaf_shown hdeclare depth nested env item
    have ih := evaluate_shown rest k depth nested (env.after o item)
    rw [Forest.preorderFrom, evaluate, List.map_cons, ← List.singleton_append, List.filter_append]
    exact sublistForall₂_append hitem ih
  | .block heading children rest, k, depth, nested, env => by
    have hopen := openLines_shown hrule depth nested env heading
    have ih := evaluate_shown rest k depth nested env
    rw [Forest.preorderFrom, evaluate, List.map_cons, ← List.singleton_append, List.filter_append, List.map_append,
      List.filter_append, ← List.append_assoc]
    refine sublistForall₂_append ?_ ih
    split
    · have ih' := evaluate_shown children (k + 1) ((o.block env.substitute nested heading).depth depth + 1)
        (o.block env.substitute nested heading).nested env.inside
      simpa [Emitted.ofLines] using sublistForall₂_append (sublistForall₂_append hopen ih')
        (@List.SublistForall₂.nil _ _ R (closeLines o depth (o.block env.substitute nested heading)))
    · -- only an at-rule opens no block, and then there is nothing in it
      rename_i hopens
      cases heading with
      | rule selector comment => exact absurd rfl hopens
      | atRule name params comment =>
        cases children with
        | nil => exact .nil
        | leaf item rest => exact absurd rfl hopens
        | block heading children rest => exact absurd rfl hopens
        | foreign item rest => cases item

end

/-! ## Strings in the output -/

/-- **What a line shows of the strings of its statement.**  In a value, a string is squeezed like all of it when the
output is compact; in a selector its aliases are spelled out.  A string in which there is nothing to do is the same. -/
inductive KeepsStrings (o : Options) : Statement → List Char → Prop
  | value {property value text : List Char} {comment : Option Comment} (depth : Nat)
      (h : ∀ q, IsString q → q <:+: value →
        o.value q <:+: text ∧ (o.compact = false ∨ Squeeze.settled q = true → q <:+: text)) :
      KeepsStrings o (.leaf (.declare property value comment))
        (o.indentAt depth ++ o.withComment (property ++ o.colon ++ text ++ [';']) comment)
  | selector {selector text : List Char} {comment : Option Comment} (depth : Nat)
      (h : ∀ a q b, IsString q → selector = a ++ q ++ b → openQuote none a ≠ q.head? →
        Selector.expand q <:+: text ∧ (¬Selector.aliasName <:+: q → q <:+: text)) :
      KeepsStrings o (.heading (.rule selector comment)) (o.indentAt depth ++ o.withComment text comment ++ o.opening)

theorem Options.value_isInfix (o : Options) (env : Env) {q value : List Char} (hq : IsString q) (h : q <:+: value) :
    o.value q <:+: o.value (env.substitute value) ∧
      (o.compact = false ∨ Squeeze.settled q = true → q <:+: o.value (env.substitute value)) := by
  obtain ⟨⟨d, body, hd, rfl, hbody⟩, hplain⟩ := hq
  obtain ⟨a, b, rfl⟩ := h
  have hkept : env.substitute body = body := substitute_of_not_mem _ fun hm => hplain (by simp [hm])
  have hsub : env.substitute (a ++ d :: (body ++ [d]) ++ b) = env.substitute a ++ d :: (body ++ [d]) ++ env.substitute b := by
    rw [Env.substitute, (substitute_atQuotes env.get?).around hd]
    rw [Env.substitute] at hkept
    rw [hkept]
    rfl
  rw [hsub]
  unfold Options.value
  by_cases hc : o.compact = true
  · obtain ⟨x, y, he⟩ := Squeeze.value_around hd (env.substitute a) body (env.substitute b)
    simp only [hc, if_true, he]
    refine ⟨List.infix_append _ _ _, fun hsettled => ?_⟩
    rw [Squeeze.value_of_settled hd (by simpa using hsettled)]
    exact List.infix_append _ _ _
  · simp only [hc]
    exact ⟨List.infix_append _ _ _, fun _ => List.infix_append _ _ _⟩

theorem Selector.expand_of_not_isInfix {q : List Char} (h : ¬aliasName <:+: q) : expand q = q := by
  refine replaceAll_of_none fun u hu => ?_
  cases hrule : aliasAt u with
  | none => rfl
  | some found =>
    obtain ⟨rest, rfl, -⟩ := aliasAt_some hrule
    exact absurd ((List.prefix_append aliasName rest).isInfix.trans hu.isInfix) h

/-- **Strings on their way from the source to the output.**  A string that outlives stripping stands in a logical line,
and every declaration and every rule keeps the strings it has. -/
theorem compile_strings {o : Options} {source : List Char} {c : Compilation} (h : compileAll o source = .ok c) :
    (∀ (front q back : List Placed), place source = front ++ q ++ back → IsString (q.map Prod.fst) →
      '\n' ∉ q.map Prod.fst → (o.compact = true → ¬Comment.opener <:+: q.map Prod.fst) →
      (∀ p ∈ q.head?, p ∈ kept o.compact source) → (∀ p ∈ q.getLast?, p ∈ kept o.compact source) →
        ∃ l ∈ c.logical, q.map Prod.fst <:+: l.text) ∧
    ∃ out, Output.emit o 0 false c.sheet {} = .ok out ∧ c.css = out.render o ∧
      List.SublistForall₂ (KeepsStrings o) ((c.sheet.preorder.map Prod.snd).filter Statement.shown) out.lines := by
  obtain ⟨r, hread, rfl⟩ := compileAll_ok h
  constructor
  · intro front q back hplace hq hbreak hopener hfirst hlast
    obtain ⟨⟨d, body, hd, he, hbody⟩, -⟩ := hq
    have hslash : d ≠ '/' := by
      rintro rfl
      cases hd
    obtain ⟨first, hf⟩ : ∃ first, q.head? = some first := by
      cases q with
      | nil => cases he
      | cons p q => exact ⟨p, rfl⟩
    obtain ⟨last, hl⟩ : ∃ last, q.getLast? = some last := by
      cases hend : q.getLast? with
      | none =>
        rw [List.getLast?_eq_none_iff.1 hend] at he
        cases he
      | some last => exact ⟨last, rfl⟩
    have hquote : last.1 = d := by
      have := congrArg List.getLast? he
      rw [List.getLast?_map, hl] at this
      simpa [List.getLast?_cons] using this
    obtain ⟨a, b, hkept⟩ := kept_string hplace hf hl (by rwa [hquote]) hbreak hopener (hfirst first hf) (hlast last hl)
    obtain ⟨line, hline, hin⟩ := @exists_line_of_isInfix source.length q b hbreak a
    rw [← hkept, ← prepare_eq] at hline
    rw [he] at hin ⊢
    exact (readLines_grouped hread).exists_isInfix hd hline hin
  · obtain ⟨out, hemit, hcss, hlines, -⟩ := Output.emit_sheet o r.sheet
    refine ⟨out, hemit, hcss, ?_⟩
    rw [hlines]
    refine evaluate_shown (fun env depth property value comment => ?_) (fun nested depth selector comment => ?_) _ _ _ _ _
    · exact .value depth fun q hq hin => o.value_isInfix env hq hin
    · refine .selector depth fun a q b hq he hopen => ?_
      subst he
      have halias := @Selector.expand_of_not_isInfix q
      obtain ⟨⟨d, body, hd, rfl, hbody⟩, -⟩ := hq
      have hin := Selector.isInfix_normalise hd hbody hopen b nested o.compact
      exact ⟨hin, fun hno => by rwa [halias hno] at hin⟩

/-- A string with a comma in a selector that goes on, and one with two slashes, in compact output. -/
theorem compile_strings_slashes : ∃ c,
    compileAll { compact := true } "[a=\"x, y\"],\nb\n  c: \"http://d\"".toList = .ok c ∧
    c.css = "[a=\"x, y\"],b\x7bc:\"http://d\";\x7d".toList ∧ (∃ l ∈ c.logical, "\"http://d\"".toList <:+: l.text) ∧
    ∃ out, Output.emit { compact := true } 0 false c.sheet {} = .ok out ∧ c.css = out.render { compact := true } ∧
      List.SublistForall₂ (KeepsStrings { compact := true })
        ((c.sheet.preorder.map Prod.snd).filter Statement.shown) out.lines := by
  have hcss : compile { compact := true } "[a=\"x, y\"],\nb\n  c: \"http://d\"".toList =
      .ok "[a=\"x, y\"],b\x7bc:\"http://d\";\x7d".toList := by
    decide +kernel
  obtain ⟨c, hc, he⟩ := compile_ok hcss
  obtain ⟨hlogical, hlines⟩ := compile_strings hc
  refine ⟨c, hc, he, ?_, hlines⟩
  have hstring : IsString "\"http://d\"".toList := ⟨⟨'"', "http://d".toList, rfl, rfl, no_quotes_of_any rfl⟩, by decide⟩
  have hq : (((place "[a=\"x, y\"],\nb\n  c: \"http://d\"".toList).drop 19).take 10).map Prod.fst =
      "\"http://d\"".toList := by
    decide
  rw [← hq] at hstring ⊢
  exact hlogical ((place "[a=\"x, y\"],\nb\n  c: \"http://d\"".toList).take 19) _ [] (by decide) hstring (by decide)
    (by decide) (by decide) (by decide)

/-- **Strings are not kept as they are**: blanks in a value are squeezed, and an alias in a selector is spelled out, inside
quotes and out. -/
theorem compile_changes_strings :
    (∃ c, compileAll { compact := true } "a\n  b: \"x  y\"".toList = .ok c ∧
      (1, .leaf (.declare ['b'] "\"x  y\"".toList none)) ∈ c.sheet.preorder ∧ IsString "\"x  y\"".toList ∧
      ¬"\"x  y\"".toList <:+: c.css) ∧
    ∃ c, compileAll {} "[a=\":hocus\"]".toList = .ok c ∧
      (0, .heading (.rule "[a=\":hocus\"]".toList none)) ∈ c.sheet.preorder ∧ IsString "\":hocus\"".toList ∧
      ¬"\":hocus\"".toList <:+: c.css := by
  refine ⟨⟨{ lines := [⟨['a'], 0⟩, ⟨"  b: \"x  y\"".toList, 2⟩]
             logical := [⟨['a'], 0, 0⟩, ⟨"b: \"x  y\"".toList, 2, 2⟩]
             sheet := .block (.rule ['a'] none) (.leaf (.declare ['b'] "\"x  y\"".toList none) .nil) .nil
             css := "a\x7bb:\"x y\";\x7d".toList }, ?_, ?_, ?_, ?_⟩,
    ⟨{ lines := [⟨"[a=\":hocus\"]".toList, 0⟩]
       logical := [⟨"[a=\":hocus\"]".toList, 0, 0⟩]
       sheet := .block (.rule "[a=\":hocus\"]".toList none) .nil .nil
       css := "@media (hover: hover) \x7b\n  [a=\":is(:hover, :focus-within)\"] \x7b\n  \x7d\n\x7d\n".toList }, ?_, ?_, ?_, ?_⟩⟩
  · decide +kernel
  · decide
  · exact ⟨⟨'"', "x  y".toList, rfl, rfl, no_quotes_of_any rfl⟩, by decide⟩
  · decide
  · decide +kernel
  · decide
  · exact ⟨⟨'"', ":hocus".toList, rfl, rfl, no_quotes_of_any rfl⟩, by decide⟩
  · decide +kernel

end Offside
