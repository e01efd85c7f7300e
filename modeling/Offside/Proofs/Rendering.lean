import Offside.Proofs.Markers
import Offside.Proofs.Selecting

/-!
# Comments as they are written

A comment is written as one CSS comment: it opens at its front and closes at its end, and not
before (`Comment.closed`).  Two kinds of comment are not: a line comment with `*/` in its text, and
the block `/*/`, whose opener is taken for its closer as well (`Comment.closed_render_iff`).
-/
namespace Offside
namespace Comment

/-- The text is one CSS comment: from its third character on the first `*/` is the one at its end. -/
def closed (cs : List Char) : Bool :=
  opener.isPrefixOf cs && (indexOf? closer (cs.drop 2)).map (· + 4) == some cs.length

/-! ## The first closer -/

theorem isPrefixOf_closer_append (c : Char) (cs : List Char) :
    closer.isPrefixOf (c :: (cs ++ closer)) = closer.isPrefixOf (c :: (cs ++ ['*'])) := by
  cases cs <;> rfl

/-- The closer at the end is the first one, if there is none before; the star of the one at the end may not serve twice. -/
theorem indexOf?_append_closer : ∀ body : List Char,
    indexOf? closer (body ++ closer) = some body.length ↔ occurs closer (body ++ ['*']) = false
  | [] => by decide
  | c :: cs => by
    have ih := indexOf?_append_closer cs
    rw [List.cons_append, List.cons_append, indexOf?, occurs, isPrefixOf_closer_append]
    by_cases hp : closer.isPrefixOf (c :: (cs ++ ['*'])) = true
    · simp [hp]
    · simp only [hp, Bool.false_eq_true, ↓reduceIte, Bool.false_or, List.length_cons, ← ih]
      cases indexOf? closer (cs ++ closer) <;> simp

theorem closed_iff (body : List Char) :
    closed (opener ++ (body ++ closer)) = true ↔ occurs closer (body ++ ['*']) = false := by
  have hlength : (opener ++ (body ++ closer)).length = body.length + 4 := by
    simp only [opener, closer, List.length_append, List.length_cons, List.length_nil]
    omega
  have hdrop : (opener ++ (body ++ closer)).drop 2 = body ++ closer := rfl
  have hopen : opener.isPrefixOf (opener ++ (body ++ closer)) = true := rfl
  rw [← indexOf?_append_closer, closed, hlength, hdrop, hopen, Bool.true_and, beq_iff_eq]
  cases indexOf? closer (body ++ closer) <;> simp

theorem eq_take_of_indexOf? {cs : List Char} {i : Nat} (h : indexOf? closer cs = some i) :
    cs.take (i + 2) = cs.take i ++ closer ∧ occurs closer (cs.take i ++ ['*']) = false := by
  induction cs generalizing i with
  | nil => cases h
  | cons c cs ih =>
    rw [indexOf?] at h
    split at h
    · rename_i hp
      obtain ⟨rest, hrest⟩ := List.isPrefixOf_iff_prefix.1 hp
      obtain rfl := Option.some.inj h
      rw [← hrest]
      exact ⟨rfl, rfl⟩
    · rename_i hp
      obtain ⟨j, hj, rfl⟩ := Option.map_eq_some_iff.1 h
      obtain ⟨htake, hfree⟩ := ih hj
      refine ⟨by rw [List.take_succ_cons, List.take_succ_cons, htake, List.cons_append], ?_⟩
      -- a closer at the front of the cut text would be one at the front of the whole
      have hfront : ¬closer.isPrefixOf (c :: (cs.take j ++ ['*'])) = true := by
        rw [← isPrefixOf_closer_append, ← htake, List.isPrefixOf_iff_prefix]
        intro hpre
        exact hp (List.isPrefixOf_iff_prefix.2 (hpre.trans (List.prefix_cons_inj c |>.2 (List.take_prefix _ cs))))
      rw [List.take_succ_cons, List.cons_append, occurs, hfree, Bool.or_false, Bool.eq_false_iff]
      exact hfront

/-! ## The kinds of comment -/

theorem closer_ne_nil : closer ≠ [] := by decide

theorem blank_not_mem_closer : ' ' ∉ closer := by decide

theorem closer_visible : ∀ c ∈ closer, isBlank c = false := by
  simp only [closer, List.forall_mem_cons]
  exact ⟨by decide, by decide, by simp⟩

theorem occurs_closer_trim (cs : List Char) : occurs closer (trim cs) = occurs closer cs :=
  occurs_trim closer_ne_nil closer_visible cs

/-- Behind a blank the star of the closer makes no closer with what stands before it. -/
theorem occurs_closer_blank (cs : List Char) : occurs closer (cs ++ [' ', '*']) = occurs closer cs := by
  rw [occurs_append_cons closer_ne_nil blank_not_mem_closer ['*'] cs, show occurs closer ['*'] = false by decide,
    Bool.or_false]

theorem occurs_of_isSuffix {word : List Char} : ∀ {cs : List Char}, word <:+ cs → occurs word cs = true
  | [], h => by rw [List.suffix_nil.1 h]; rfl
  | c :: cs, h => by
    rw [occurs, Bool.or_eq_true]
    rcases List.suffix_cons_iff.1 h with rfl | h
    · exact Or.inl (List.isPrefixOf_iff_prefix.2 List.prefix_rfl)
    · exact Or.inr (occurs_of_isSuffix h)

/-- The star of the opener serves for a closer only in `/*/`. -/
theorem closer_isSuffix_iff {body : List Char} (h : occurs closer body = false) :
    closer <:+ opener ++ body ↔ body = ['/'] := by
  constructor
  · intro hs
    rw [opener, List.cons_append, List.singleton_append] at hs
    rcases List.suffix_cons_iff.1 hs with he | hs
    · exact absurd (List.cons.inj he).1 (by decide)
    · rcases List.suffix_cons_iff.1 hs with he | hs
      · exact (List.cons.inj he).2.symm
      · rw [occurs_of_isSuffix hs] at h
        cases h
  · rintro rfl
    exact ⟨['/'], rfl⟩

theorem trim_opener (body : List Char) : trim (opener ++ body) = opener ++ trimRight body := by
  have hslash : isBlank '/' = false := by decide
  have hstar : isBlank '*' = false := by decide
  rw [opener, List.cons_append, List.singleton_append, trim, trimLeft_cons_of_visible hslash,
    trimRight_cons_of_visible hslash, trimRight_cons_of_visible hstar]
  rfl

theorem trimRight_append_closer (body : List Char) : trimRight (body ++ closer) = body ++ closer :=
  trimRight_of_getLast? (c := '/') (by simp [closer]) (by decide)

/-- A line comment is written anew from its text. -/
theorem closed_render_line (text raw : List Char) :
    opener <+: render { kind := .line, text := text, raw := raw } ∧
      (closed (render { kind := .line, text := text, raw := raw }) = true ↔ occurs closer text = false) := by
  have hrender : render { kind := .line, text := text, raw := raw } =
      opener ++ ((if trim text = [] then [' '] else [' '] ++ trim text ++ [' ']) ++ closer) := by
    unfold render
    simp only [show (CommentKind.line == .block) = false from rfl, Bool.false_and, Bool.false_eq_true, ↓reduceIte]
    cases trim text with
    | nil => rfl
    | cons c cs => simp
  rw [hrender, closed_iff, ← occurs_closer_trim text]
  refine ⟨List.prefix_append _ _, ?_⟩
  split
  · rename_i he
    rw [he]
    decide
  · have hfront := occurs_append_cons closer_ne_nil blank_not_mem_closer (trim text ++ [' ', '*']) []
    rw [List.nil_append, occurs_nil closer_ne_nil, Bool.false_or, occurs_closer_blank] at hfront
    rw [List.append_assoc, List.append_assoc, List.singleton_append, List.singleton_append, hfront]

/-- A block comment is written as it stands, with a closer behind it if none ends it. -/
theorem render_block {body : List Char} (hbody : trimRight body = body) (text : List Char) :
    render { kind := .block, text := text, raw := opener ++ body } =
      if closer <:+ opener ++ body then opener ++ body else opener ++ (body ++ [' '] ++ closer) := by
  have hopen : opener.isPrefixOf (opener ++ body) = true := rfl
  unfold render
  simp only [trim_opener, hbody, beq_self_eq_true, Bool.true_and, hopen, ↓reduceIte, List.isSuffixOf_iff_suffix,
    List.append_assoc]
  rfl

theorem closed_render_block {body : List Char} (h : occurs closer (body ++ ['*']) = false) (text : List Char) :
    opener <+: render { kind := .block, text := text, raw := opener ++ (body ++ closer) } ∧
      closed (render { kind := .block, text := text, raw := opener ++ (body ++ closer) }) = true := by
  have hends : closer <:+ opener ++ (body ++ closer) := ⟨opener ++ body, by simp⟩
  rw [render_block (trimRight_append_closer body), if_pos hends, closed_iff]
  exact ⟨List.prefix_append _ _, h⟩

theorem closed_render_open {body : List Char} (hbody : trimRight body = body) (h : occurs closer body = false)
    (text : List Char) :
    opener <+: render { kind := .block, text := text, raw := opener ++ body } ∧
      (closed (render { kind := .block, text := text, raw := opener ++ body }) = true ↔ body ≠ ['/']) := by
  rw [render_block hbody]
  by_cases hs : closer <:+ opener ++ body
  · rw [if_pos hs, (closer_isSuffix_iff h).1 hs]
    exact ⟨List.prefix_append _ _, by decide⟩
  · have hlast : body ++ [' '] ++ ['*'] = body ++ [' ', '*'] := by simp
    rw [if_neg hs, closed_iff, hlast, occurs_closer_blank]
    exact ⟨List.prefix_append _ _, iff_of_true h fun he => hs ((closer_isSuffix_iff h).2 he)⟩

/-! ## From the line to the comment -/

theorem ofTail_line (rest : List Char) :
    ofTail ('/' :: '/' :: rest) = { kind := .line, text := trim rest, raw := '/' :: '/' :: trimRight rest } := by
  have hslash : isBlank '/' = false := by decide
  have hraw : trim ('/' :: '/' :: rest) = '/' :: '/' :: trimRight rest := by
    rw [trim, trimLeft_cons_of_visible hslash, trimRight_cons_of_visible hslash, trimRight_cons_of_visible hslash]
  simp [ofTail, hraw]

theorem ofTail_block {rest : List Char} {stop : Nat} (h : indexOf? closer rest = some stop) :
    ofTail (opener ++ rest) =
      { kind := .block, text := trim (rest.take stop), raw := opener ++ (rest.take stop ++ closer) } := by
  have htake : (opener ++ rest).take (stop + 4) = opener ++ (rest.take stop ++ closer) := by
    rw [← (eq_take_of_indexOf? h).1]
    rfl
  have hraw : trim ((opener ++ rest).take (stop + 4)) = opener ++ (rest.take stop ++ closer) := by
    rw [htake, trim_opener, trimRight_append_closer]
  have hdrop : (opener ++ rest).drop 2 = rest := rfl
  have hkind : ((opener ++ rest)[1]? == some '/') = false := rfl
  unfold ofTail
  simp only [hkind, Bool.false_eq_true, ↓reduceIte, hdrop, h, hraw]

theorem ofTail_open {rest : List Char} (h : indexOf? closer rest = none) :
    ofTail (opener ++ rest) = { kind := .block, text := trim rest, raw := opener ++ trimRight rest } := by
  have hdrop : (opener ++ rest).drop 2 = rest := rfl
  have hkind : ((opener ++ rest)[1]? == some '/') = false := rfl
  unfold ofTail
  simp only [hkind, Bool.false_eq_true, ↓reduceIte, hdrop, h, trim_opener]

/-- **Which comments are written as one CSS comment.**  Each is opened at its front, and closed at its end and not before,
unless it is a line comment with a closer in its text, or the block `/*/`. -/
theorem closed_render_iff {content : List Char} {c : Comment} (h : (extract content).2 = some c) :
    opener <+: c.render ∧
      (closed c.render = true ↔ (c.kind = .line → occurs closer c.text = false) ∧ c.raw ≠ "/*/".toList) := by
  have hcode : code content ≠ content := fun he => by
    rw [extract_eq_none_iff.2 he] at h
    cases h
  rw [extract_eq, if_neg hcode, Option.some.injEq] at h
  obtain ⟨d, rest, htail, rfl | rfl⟩ := exists_tail hcode
  · rw [htail, ofTail_line] at h
    subst h
    refine ⟨(closed_render_line _ _).1, (closed_render_line _ _).2.trans ?_⟩
    simp
  · rw [htail, show '/' :: '*' :: rest = opener ++ rest from rfl] at h
    cases hi : indexOf? closer rest with
    | some stop =>
      rw [ofTail_block hi] at h
      subst h
      obtain ⟨hopen, hclosed⟩ := closed_render_block (eq_take_of_indexOf? hi).2 (trim (rest.take stop))
      refine ⟨hopen, iff_of_true hclosed ⟨by simp, fun he => ?_⟩⟩
      have hlength := congrArg List.length he
      simp [opener, closer] at hlength
    | none =>
      have hfree : occurs closer (trimRight rest) = false := by
        rw [← occurs_closer_trim, trim_trimRight, occurs_closer_trim, ← indexOf?_isSome, hi]
        rfl
      rw [ofTail_open hi] at h
      subst h
      obtain ⟨hopen, hclosed⟩ := closed_render_open (trimRight_trimRight rest) hfree (trim rest)
      refine ⟨hopen, hclosed.trans ?_⟩
      simp [opener]

/-- A block comment that a star ends and nothing closes. -/
theorem closed_render_iff_star :
    let c : Comment := { kind := .block, text := "c *".toList, raw := "/* c *".toList }
    (extract "a: b /* c *".toList).2 = some c ∧ opener <+: c.render ∧
      (closed c.render = true ↔ (c.kind = .line → occurs closer c.text = false) ∧ c.raw ≠ "/*/".toList) :=
  ⟨by decide, @closed_render_iff "a: b /* c *".toList _ (by decide)⟩

/-- The opener of a block comment is taken for its closer, and a closer in a line comment ends what is written. -/
theorem render_not_closed :
    ((extract "/*/".toList).2.map render = some "/*/".toList ∧ closed "/*/".toList = false) ∧
      (extract "a // b */ c".toList).2.map render = some "/* b */ c */".toList ∧ closed "/* b */ c */".toList = false := by
  decide

end Comment
end Offside
