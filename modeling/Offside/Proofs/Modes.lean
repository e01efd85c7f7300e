import Offside.Proofs.Erasure
import Offside.Proofs.Reading
import Offside.Proofs.Stripping

/-!
# Reading with comments and without

Two readers over the same tidy lines: one sees the comments, the other reads what
stripping leaves.  Whatever the first one accepts the second one accepts too, and
builds the same forest without its comments (`Mirrors.runs`).  A comment on a
line of its own is a statement for the first reader only, so the first one may
have learned more and may have closed more blocks; the second one stands open at
every level where the first one does (`Mirrors.opens`).
-/
namespace Offside

/-! ## Kinds of lines -/

/-- A comment on a line of its own. -/
def isRemark (text : List Char) : Bool := !(Comment.tail text).isEmpty && allBlank (Comment.code text)

/-- Something visible stands right before the last character. -/
def tightEnd (text : List Char) : Bool := text.dropLast.getLast?.any fun c => !isBlank c

def endsWithComma (cs : List Char) : Bool := (trim cs).getLast? == some ','

/-- No comma ends the line where a comment or an open quote would make it matter. -/
def commaPlain (text : List Char) : Bool :=
  if (Comment.tail text).isEmpty then !endsWithComma text || Comment.quotesClosed text
  else !endsWithComma text && !endsWithComma (Comment.code text)

/-- A line and the next one, unless that is blank, which nothing goes on with.  Where a remark follows a line that ends with
a comma, no blank stands before the comma: the remark may be taken for a continuation, and then the blank would go. -/
def meets (text next : List Char) : Bool :=
  allBlank next || commaPlain text &&
    (!(isRemark next && (Comment.tail text).isEmpty && endsWithComma text) || tightEnd (trim text))

theorem meets_iff {text next : List Char} (hb : allBlank next = false) : meets text next = true ↔ commaPlain text = true ∧
    (isRemark next = true → Comment.tail text = [] → endsWithComma text = true → tightEnd (trim text) = true) := by
  simp only [meets, hb, Bool.false_or, Bool.and_eq_true, Bool.or_eq_true, Bool.not_eq_true', Bool.and_eq_false_iff,
    List.isEmpty_eq_false_iff, ne_eq]
  grind

-- a comma that ends a comment, before a line that would go on with it and before a blank one
example : meets "a // x,".toList ['b'] = false ∧ meets "a // x,".toList [] = true := by decide

/-- A line, and what stripping leaves of it. -/
structure Seen (line left : Line) : Prop where
  tidy : tidy line.text = true
  rest : trimRight left.text = trimRight (Comment.code line.text)

theorem code_of_blank {text : List Char} (h : allBlank text = true) : Comment.code text = text :=
  Comment.codeFrom_of_blank h none false

theorem blank_or_remark {text : List Char} (h : allBlank (Comment.code text) = true) :
    allBlank text = true ∨ (isRemark text = true ∧ allBlank text = false) := by
  by_cases hb : allBlank text = true
  · exact Or.inl hb
  · refine Or.inr ⟨?_, by simpa using hb⟩
    have ht : Comment.tail text ≠ [] := fun ht => hb (by rw [← Comment.tail_eq_nil_iff.1 ht]; exact h)
    simp [isRemark, h, ht]

theorem remark_or_code {text : List Char} (h : allBlank text = false) :
    isRemark text = true ∨ allBlank (Comment.code text) = false := by
  by_cases hc : allBlank (Comment.code text) = true
  · exact Or.inl ((blank_or_remark hc).resolve_left (by simp [h])).1
  · exact Or.inr (by simpa using hc)

theorem code_of_remark {text : List Char} (h : isRemark text = true) : allBlank (Comment.code text) = true :=
  (Bool.and_eq_true_iff.1 h).2

theorem allBlank_of_code {text : List Char} (h : allBlank (Comment.code text) = false) : allBlank text = false := by
  rw [← Bool.not_eq_true] at h ⊢
  exact fun hb => h (by rw [code_of_blank hb]; exact hb)

namespace Seen

variable {line left : Line}

theorem trim_left (h : Seen line left) : trim left.text = trim (Comment.code line.text) := by
  rw [← trim_trimRight, h.rest, trim_trimRight]

theorem allBlank_left (h : Seen line left) : allBlank left.text = allBlank (Comment.code line.text) := by
  rw [← allBlank_trim, h.trim_left, allBlank_trim]

theorem blank (h : Seen line left) (hb : allBlank line.text = true) : allBlank left.text = true := by
  rw [h.allBlank_left, code_of_blank hb, hb]

theorem blank_head {lines lefts : List Line} (h : List.Forall₂ Seen lines lefts)
    (hb : ∀ line ∈ lines.head?, allBlank line.text = true) : ∀ left ∈ lefts.head?, allBlank left.text = true := by
  cases h with
  | nil => exact fun _ hl => by cases hl
  | cons hl _ =>
    rintro left ⟨⟩
    exact hl.blank (hb _ rfl)

theorem remark (h : Seen line left) (hr : isRemark line.text = true) : allBlank left.text = true := by
  rw [h.allBlank_left, code_of_remark hr]

theorem leadingRun_left (h : Seen line left) (hc : allBlank (Comment.code line.text) = false) :
    leadingRun left.text = leadingRun line.text := by
  have htrim : ∀ {cs : List Char}, allBlank cs = false → leadingRun (trimRight cs) = leadingRun cs := by
    intro cs hcs
    obtain ⟨b, -, he⟩ := exists_trimRight_append cs
    have hvisible : allBlank (trimRight cs) = false := by rw [← allBlank_trim, trim_trimRight, allBlank_trim, hcs]
    conv_rhs => rw [he, Indentation.leadingRun_append hvisible]
  rw [← Comment.code_append_tail line.text, Indentation.leadingRun_append hc, ← htrim hc, ← h.rest, htrim]
  rw [h.allBlank_left, hc]

end Seen

/-! ## What one of them has learned -/

/-- **What is learned from fewer lines**: the style is unknown or the same; so is the step, but tabs may have been made
a step of another width. -/
structure Indentation.Trails (c f : Indentation) : Prop where
  style : c.style = none ∨ c.style = f.style
  step : ∀ t, c.step = some t → f.step = some t ∨ (f.style = some .tab ∧ f.step ≠ none)

namespace Indentation

variable {c f : Indentation} {style : Style} {n d : Nat}

theorem Trails.agrees (h : c.Trails f) (hf : agrees f.style style = true) : agrees c.style style = true := by
  rcases h.style with hc | hc
  · simp [Indentation.agrees, hc]
  · rw [hc]
    exact hf

theorem Trails.measures (h : c.Trails f) {text text' : List Char} (hm : f.Measures text style n)
    (hrun : leadingRun text' = leadingRun text) : c.Measures text' style n :=
  ⟨hrun.trans hm.run, fun hn => h.agrees (hm.agrees hn)⟩

/-- The one that is ahead may learn more, -/
theorem Trails.see_right (h : c.Trails f) (ha : n ≠ 0 → Indentation.agrees f.style style = true) :
    c.Trails (f.see style n) := by
  by_cases hn : n = 0
  · subst hn
    exact h
  · rw [see_of_ne_zero _ _ hn]
    have hf := style_of_agrees (ha hn)
    refine ⟨?_, fun t ht => (h.step t ht).imp id fun ⟨hs, hne⟩ => ⟨?_, hne⟩⟩
    · rcases hf with hf | hf
      · exact Or.inl (h.style.elim id fun he => he.trans hf)
      · exact h.style.imp id fun he => he.trans hf
    · rcases hf with hf | hf
      · rw [hf] at hs
        cases hs
      · exact hf.symm.trans hs

/-- and both may learn the same. -/
theorem Trails.see (h : c.Trails f) (ha : n ≠ 0 → Indentation.agrees f.style style = true) :
    (c.see style n).Trails (f.see style n) := by
  have hr := h.see_right ha
  by_cases hn : n = 0
  · subst hn
    exact h
  · refine ⟨Or.inr ?_, fun t ht => hr.step t (by rwa [see_step] at ht)⟩
    rw [see_of_ne_zero _ _ hn, see_of_ne_zero _ _ hn]

/-- **An indent of `d` steps is one for both.** -/
theorem Trails.fits (h : c.Trails f) (hposf : ∀ s, f.step = some s → 0 < s) (hposc : ∀ s, c.step = some s → 0 < s)
    (hd : d ≠ 0 → f.step ≠ none ∧ c.step ≠ none) (ha : n ≠ 0 → Indentation.agrees f.style style = true) :
    n * f.width style = d * f.step.getD 0 ↔ n * c.width style = d * c.step.getD 0 := by
  have hwf := width_pos hposf style
  have hwc := width_pos hposc style
  by_cases hd0 : d = 0
  · subst hd0
    simp only [Nat.zero_mul, Nat.mul_eq_zero]
    omega
  · obtain ⟨s, hs⟩ := Option.ne_none_iff_exists'.1 (hd hd0).1
    obtain ⟨t, ht⟩ := Option.ne_none_iff_exists'.1 (hd hd0).2
    have hspos := hposf s hs
    have htpos := hposc t ht
    rw [hs, ht, Option.getD_some, Option.getD_some]
    cases style with
    | tab =>
      rw [width, width, hs, ht, Option.getD_some, Option.getD_some, Nat.mul_left_inj (Nat.ne_of_gt hspos),
        Nat.mul_left_inj (Nat.ne_of_gt htpos)]
    | space =>
      rcases h.step t ht with he | ⟨htab, -⟩
      · rw [hs, Option.some.injEq] at he
        rw [he]
        rfl
      · -- tabs are used in the file, so there are no spaces here
        have hn : n = 0 := by
          by_contra hn
          have := ha hn
          rw [htab] at this
          cases this
        subst hn
        have h1 := Nat.mul_pos (Nat.pos_of_ne_zero hd0) hspos
        have h2 := Nat.mul_pos (Nat.pos_of_ne_zero hd0) htpos
        omega

theorem Trails.settle_right (h : c.Trails f) (ha : n ≠ 0 → Indentation.agrees f.style style = true) :
    c.Trails (f.settle style n) := by
  have hr := h.see_right ha
  by_cases hn : n = 0
  · subst hn
    exact h
  · rw [see_of_ne_zero _ _ hn] at hr
    rw [settle_of_ne_zero _ _ hn]
    refine ⟨hr.style, fun t ht => ?_⟩
    rcases hr.step t ht with hs | ⟨hs, -⟩
    · exact Or.inl (congrArg (fun step => some (step.getD (n * f.width style))) hs)
    · exact Or.inr ⟨hs, by simp⟩

theorem Trails.refl (ind : Indentation) : ind.Trails ind := ⟨Or.inr rfl, fun _ h => Or.inl h⟩

theorem Trails.step_ne_none (h : c.Trails f) (hc : c.step ≠ none) : f.step ≠ none := by
  obtain ⟨t, ht⟩ := Option.ne_none_iff_exists'.1 hc
  rcases h.step t ht with hf | ⟨-, hf⟩
  · rw [hf]
    simp
  · exact hf

end Indentation

/-- **A line that one of them takes in the other takes in too**, at the same level. -/
theorem Frames.Takes.trails {framesf framesc : Frames} {f c : Indentation} {text text' : List Char} {style : Style}
    {n d : Nat}
    (h : framesf.Takes f text style n d) (htrails : c.Trails f) (haf : framesf.Aligned f) (hac : framesc.Aligned c)
    (hopen : framesc.Admits d) (hrun : leadingRun text' = leadingRun text) :
    framesc.Takes c text' style n d ∧ (c.settle style n).Trails (f.settle style n) := by
  have hm := htrails.measures h.measures hrun
  by_cases hn : n = 0
  · subst hn
    obtain rfl := h.flat rfl
    exact ⟨framesc.takes_zero c hm.run style, htrails⟩
  · have hwhole := h.whole_of_ne_zero hn
    have hd := h.ne_zero haf.pos hn
    have hone : c.step = none → d = 1 := fun hs => by
      have := hac.admits_le_one hs hopen
      omega
    have hsame : style = .space → c.step.getD (n * c.width style) = f.step.getD (n * f.width style) := by
      rintro rfl
      cases hc : c.step with
      | none =>
        cases hf : f.step with
        | none => rfl
        | some s =>
          rw [hone hc, hf, Option.getD_some, Nat.one_mul] at hwhole
          exact hwhole
      | some t =>
        rcases htrails.step t hc with hf | ⟨htab, -⟩
        · rw [hf, Option.getD_some, Option.getD_some]
        · have := h.measures.agrees hn
          rw [htab] at this
          cases this
    refine ⟨⟨hm, hopen, fun h0 => absurd h0 hn, ?_⟩, ?_⟩
    · rw [Indentation.settle_of_ne_zero _ _ hn, Option.getD_some]
      cases style with
      | space =>
        rw [hsame rfl]
        exact hwhole
      | tab =>
        cases hc : c.step with
        | none => rw [hone hc, Option.getD_none, Nat.one_mul]
        | some t =>
          obtain ⟨s, hs⟩ := Option.ne_none_iff_exists'.1 (htrails.step_ne_none (by rw [hc]; simp))
          rw [Indentation.width, hs, Option.getD_some] at hwhole
          rw [Indentation.width, hc, Option.getD_some, Nat.eq_of_mul_eq_mul_right (haf.pos s hs) hwhole]
          rfl
    · rw [Indentation.settle_of_ne_zero _ _ hn, Indentation.settle_of_ne_zero _ _ hn]
      refine ⟨Or.inr rfl, fun t ht => ?_⟩
      cases style with
      | space => exact Or.inl (by rw [← ht]; exact congrArg some (hsame rfl).symm)
      | tab => exact Or.inr ⟨rfl, by simp⟩

/-! ## Continued lines -/

/-- A text behind which the search for markers begins anew. -/
structure Transparent (p : List Char) : Prop where
  code : ∀ text, Comment.code (p ++ text) = p ++ Comment.code text
  closed : ∀ text, Comment.quotesClosed (p ++ text) = Comment.quotesClosed text

theorem Transparent.nil : Transparent [] := ⟨fun _ => rfl, fun _ => rfl⟩

/-- A comma matters only where the line has no comment and leaves no quote open. -/
theorem bare_of_comma {text : List Char} (hend : commaPlain text = true)
    (hcomma : (trim text).getLast? = some ',' ∨ (trim (Comment.code text)).getLast? = some ',') :
    Comment.code text = text ∧ Comment.quotesClosed text = true := by
  rw [commaPlain] at hend
  by_cases ht : Comment.tail text = []
  · have hc := Comment.tail_eq_nil_iff.1 ht
    rw [hc, or_self] at hcomma
    have he : endsWithComma text = true := by rw [endsWithComma, hcomma]; rfl
    rw [ht, he] at hend
    exact ⟨hc, by simpa using hend⟩
  · have hne : (Comment.tail text).isEmpty = false := by simp [ht]
    rw [hne] at hend
    simp only [endsWithComma, Bool.false_eq_true, ↓reduceIte, Bool.and_eq_true, Bool.not_eq_true',
      beq_eq_false_iff_ne] at hend
    exact (hcomma.elim hend.1 hend.2).elim

theorem no_comma_of_remark {text : List Char} (h : commaPlain text = true) (hr : isRemark text = true) :
    (trim text).getLast? ≠ some ',' := by
  intro hc
  have := (bare_of_comma h (Or.inl hc)).1
  simp [isRemark, Comment.tail_eq_nil_iff.2 this] at hr

theorem comma_of_code {p text : List Char} (h : commaPlain text = true) (hcode : allBlank (Comment.code text) = false)
    (hc : (p ++ trim (Comment.code text)).getLast? = some ',') : (p ++ trim text).getLast? = some ',' := by
  rw [getLast?_append_trim hcode] at hc
  rw [getLast?_append_trim (allBlank_of_code hcode), ← hc, (bare_of_comma h (Or.inr hc)).1]

theorem Transparent.joinText {p text : List Char} (hp : Transparent p) (ht : commaPlain text = true)
    (hb : allBlank text = false) (hcomma : (p ++ trim text).getLast? = some ',') :
    Transparent (trimRight (p ++ trim text).dropLast ++ [',', ' ']) := by
  rw [getLast?_append_trim hb] at hcomma
  obtain ⟨hcode, hclosed⟩ := bare_of_comma ht (Or.inl hcomma)
  have h := @Comment.search_joinText (p ++ trim text) (by rw [hp.code, (Comment.code_trim_iff text).2 hcode])
    (by rw [hp.closed, Comment.quotesClosed_trim, hclosed]) (by rw [getLast?_append_trim hb, hcomma])
  exact ⟨fun next => (h next).1, fun next => (h next).2⟩

theorem Transparent.trim_code {p : List Char} (hp : Transparent p) (text : List Char) :
    trim (Comment.code (p ++ trim text)) = trim (p ++ trim (Comment.code text)) := by
  obtain ⟨b, hb, he⟩ := exists_trimRight_append (Comment.code (trim text))
  rw [hp.code, he, Comment.trimRight_code_trim, ← List.append_assoc, trim_append_blank_right hb]

/-- What two joined texts have in common: the statement, and the lines taken up, but for a remark that only the reader
of comments sees. -/
structure Together (lefts : List Line) (jf jc : Joined) : Prop where
  main : trim (Comment.code jf.text) = trim jc.text
  lines : jf.lines = jc.lines ∨
    (jf.lines = jc.lines + 1 ∧ ∃ left, lefts[jc.lines]? = some left ∧ allBlank left.text = true)

/-- A remark behind the comma leaves the statement as it is. -/
theorem Transparent.trim_code_remark {p text next : List Char} (hp : Transparent p) (hb : allBlank text = false)
    (hcomma : (p ++ trim text).getLast? = some ',') (hnext : isRemark next = true) (hline : allBlank next = false)
    (hmeets : meets text next = true) :
    trim (Comment.code (Offside.joinText (p ++ trim text) (trim next))) = trim (p ++ trim text) := by
  obtain ⟨ht, hremark⟩ := (meets_iff hline).1 hmeets
  have htrans := hp.joinText ht hb hcomma
  rw [getLast?_append_trim hb] at hcomma
  obtain ⟨hcode, -⟩ := bare_of_comma ht (Or.inl hcomma)
  have hends : endsWithComma text = true := by rw [endsWithComma, hcomma]; rfl
  have htight : tightEnd (trim text) = true := hremark hnext (Comment.tail_eq_nil_iff.2 hcode) hends
  obtain ⟨init, hinit⟩ := List.getLast?_eq_some_iff.1 hcomma
  rw [tightEnd, hinit, List.dropLast_concat, Option.any_eq_true] at htight
  obtain ⟨c, hc, hvisible⟩ := htight
  have hlast : (p ++ init).getLast? = some c := by
    rw [List.getLast?_append, Option.mem_def.1 hc]
    rfl
  have hblank : trim (Comment.code next) = [] := trim_eq_nil_iff.2 (code_of_remark hnext)
  rw [Offside.joinText, htrans.trim_code, hblank, hinit, ← List.append_assoc, List.dropLast_concat,
    trimRight_of_getLast? hlast (by simpa using hvisible), List.append_nil]
  rw [show [',', ' '] = [','] ++ [' '] from rfl, ← List.append_assoc, trim_append_blank_right (by decide)]

/-- No line may be taken for a continuation where that would show. -/
def Meeting (texts : List (List Char)) : Prop := texts.IsChain fun text next => meets text next = true

instance (texts : List (List Char)) : Decidable (Meeting texts) :=
  inferInstanceAs (Decidable (texts.IsChain fun text next => meets text next = true))

theorem Meeting.tail {text : List Char} {texts : List (List Char)} (h : Meeting (text :: texts)) : Meeting texts :=
  (List.isChain_cons.1 h).2

/-- Nothing goes on behind the line, or its commas are plain. -/
theorem Meeting.blank_or_plain {text : List Char} {lines : List Line} (h : Meeting (text :: lines.map Line.text)) :
    (∀ line ∈ lines.head?, allBlank line.text = true) ∨ commaPlain text = true := by
  cases lines with
  | nil => exact Or.inl fun _ hl => by cases hl
  | cons line lines =>
    by_cases hb : allBlank line.text = true
    · exact Or.inl fun l hl => by cases hl; exact hb
    · have hmeets := (List.isChain_cons_cons.1 h).1
      exact Or.inr ((meets_iff (by simpa using hb)).1 hmeets).1

/-- Nothing goes on behind a remark. -/
theorem Meeting.ends_of_remark {text : List Char} {lines : List Line} (h : Meeting (text :: lines.map Line.text))
    (hr : isRemark text = true) (hb : allBlank text = false) (p : List Char) :
    (p ++ trim text).getLast? ≠ some ',' ∨ ∀ line ∈ lines.head?, allBlank line.text = true := by
  rcases h.blank_or_plain with hblank | hplain
  · exact Or.inr hblank
  · rw [getLast?_append_trim hb]
    exact Or.inl (no_comma_of_remark hplain hr)

/-- **Both readers join the same lines**, a last remark aside. -/
theorem Joins.mirrors {lines : List Line} {whole : List Char} {f after : Indentation} {indent : Nat} {jf : Joined}
    (h : Joins indent f whole lines after jf) : ∀ {lefts : List Line} {p text : List Char} {c : Indentation} {d : Nat},
      whole = p ++ trim text → indent = d * f.step.getD 0 → List.Forall₂ Seen lines lefts →
      Meeting (text :: lines.map Line.text) → allBlank (Comment.code text) = false → Transparent p →
      c.Trails f → (∀ s, f.step = some s → 0 < s) → (∀ s, c.step = some s → 0 < s) →
      (d ≠ 0 → f.step ≠ none ∧ c.step ≠ none) →
        ∃ after' jc, Joins (d * c.step.getD 0) c (p ++ trim (Comment.code text)) lefts after' jc ∧ after'.Trails after ∧
          Together lefts jf jc := by
  induction h with
  | ends hends =>
    rintro lefts p text c d rfl rfl hseen hmeet hcode hp htrails hposf hposc hd
    refine ⟨c, _, .ends ?_, htrails, hp.trim_code text, Or.inl rfl⟩
    rcases hmeet.blank_or_plain with hb | hplain
    · exact Or.inr (Seen.blank_head hseen hb)
    · exact hends.imp (fun hno hc => hno (comma_of_code hplain hcode hc)) (Seen.blank_head hseen)
  | @stops f whole line lines style n hcomma hline hm hi =>
    rintro lefts p text c d rfl rfl (_ | ⟨hl, hseen⟩) hmeet hcode hp htrails hposf hposc hd
    have hb := allBlank_of_code hcode
    obtain ⟨hplain, -⟩ := (meets_iff hline).1 (List.isChain_cons_cons.1 hmeet).1
    obtain ⟨hbare, -⟩ := bare_of_comma hplain (Or.inl (getLast?_append_trim hb p ▸ hcomma))
    have hstop := hp.trim_code text
    rw [hbare] at hstop ⊢
    rcases remark_or_code hline with hremark | hnext
    · exact ⟨c, _, .ends (Or.inr fun left hleft => by cases hleft; exact hl.remark hremark),
        htrails.see_right hm.agrees,
        hstop, Or.inl rfl⟩
    · have hmc := htrails.measures hm (hl.leadingRun_left hnext)
      have hleft := hl.allBlank_left.trans hnext
      exact ⟨_, _, .stops hcomma hleft hmc fun he => hi ((htrails.fits hposf hposc hd hm.agrees).2 he),
        htrails.see hm.agrees, hstop, Or.inl rfl⟩
  | @goes f after whole line lines style n more hcomma hline hm hi hmore ih =>
    rintro lefts p text c d rfl rfl (_ | ⟨hl, hseen⟩) hmeet hcode hp htrails hposf hposc hd
    have hb := allBlank_of_code hcode
    have hmeets := (List.isChain_cons_cons.1 hmeet).1
    obtain ⟨hplain, -⟩ := (meets_iff hline).1 hmeets
    obtain ⟨hbare, -⟩ := bare_of_comma hplain (Or.inl (getLast?_append_trim hb p ▸ hcomma))
    rw [hbare]
    rcases remark_or_code hline with hremark | hnext
    · -- nothing goes on behind a remark, and the other reader does not see it
      obtain ⟨rfl, rfl⟩ := hmore.of_ends (hmeet.tail.ends_of_remark hremark hline _)
      have hleft := hl.remark hremark
      exact ⟨c, _, .ends (Or.inr fun left h => by cases h; exact hleft), htrails.see_right hm.agrees,
        hp.trim_code_remark hb hcomma hremark hline hmeets, Or.inr ⟨rfl, _, rfl, hleft⟩⟩
    · have hmc := htrails.measures hm (hl.leadingRun_left hnext)
      have hleft := hl.allBlank_left.trans hnext
      have hstepf := f.see_step style n
      have hstepc := c.see_step style n
      obtain ⟨after', jc, hjc, htrails', htogether⟩ := ih (by rw [joinText]) (by rw [hstepf]) hseen hmeet.tail
        hnext (hp.joinText hplain hb hcomma) (htrails.see hm.agrees) (hstepf ▸ hposf) (hstepc ▸ hposc)
        (by rw [hstepf, hstepc]; exact hd)
      rw [hstepc, ← hl.trim_left] at hjc
      refine ⟨after', _, .goes hcomma hleft hmc ((htrails.fits hposf hposc hd hm.agrees).1 hi) hjc, htrails',
        htogether.main, ?_⟩
      rcases htogether.lines with he | ⟨he, hblank⟩
      · exact Or.inl (congrArg (· + 1) he)
      · exact Or.inr ⟨congrArg (· + 1) he, hblank⟩

/-! ## The two readers -/

/-- **The relation between the two readers.** -/
structure Mirrors (f c : Reader) : Prop where
  formatted : f.Sound false
  compact : c.Sound true
  view : c.sheet.preorder = eraseView f.sheet.preorder
  trails : c.indentation.Trails f.indentation
  opens : ∀ d, f.frames.Admits d → c.frames.Admits d

theorem Mirrors.initial : Mirrors {} {} where
  formatted := Reader.Sound.initial false
  compact := Reader.Sound.initial true
  view := rfl
  trails := ⟨Or.inl rfl, fun _ h => by cases h⟩
  opens _ h := h

theorem Statement.read_together {jf jc : Joined} (h : trim (Comment.code jf.text) = trim jc.text) {s : Option Statement}
    (hs : Statement.read false jf.text = .ok s) :
    Statement.read true jc.text = .ok (s.bind Statement.eraseComment) := by
  have he := Statement.readMain_erase (trim (Comment.extract jf.text).1) (Comment.extract jf.text).2
  rw [← Statement.read_formatted, hs, Comment.trim_extract, h, ← Statement.read_compact] at he
  exact he.symm

/-- **A statement is read by both.** -/
theorem Mirrors.statement {f c f' : Reader} {line left : Line} {lines lefts : List Line} {skip : Nat} (h : Mirrors f c)
    (hl : Seen line left) (hcode : allBlank (Comment.code line.text) = false) (hseen : List.Forall₂ Seen lines lefts)
    (hmeet : Meeting (line.text :: lines.map Line.text)) (hs : f.step false line lines = (f', .ok skip)) :
    ∃ c' skip', c.step true left lefts = (c', .ok skip') ∧ Mirrors f' c' ∧
      (skip = skip' ∨ (skip = skip' + 1 ∧ ∃ left, lefts[skip']? = some left ∧ allBlank left.text = true)) := by
  have hb := allBlank_of_code hcode
  obtain ⟨style, n, d, jf, s, htakes, hj, hread, rfl, hgrows⟩ := h.formatted.step_takes hb hs
  obtain ⟨htakes', htrails⟩ := htakes.trails h.trails h.formatted.aligned h.compact.aligned (h.opens d htakes.admits)
    (hl.leadingRun_left hcode)
  obtain ⟨ind, jc, hjc, htrails, htogether⟩ := @Joins.mirrors _ _ _ _ _ _ hj _ [] _ _ _ rfl htakes.whole hseen hmeet
    hcode Transparent.nil htrails (Indentation.settle_pos h.formatted.aligned.pos style n)
    (Indentation.settle_pos h.compact.aligned.pos style n) fun hd => ⟨htakes.step_ne_none hd, htakes'.step_ne_none hd⟩
  rw [List.nil_append, ← hl.trim_left, ← htakes'.whole] at hjc
  have hread' := Statement.read_together htogether.main hread
  have hleft := hl.allBlank_left.trans hcode
  have hblank : allBlank jc.text = false := hjc.not_blank (by rw [allBlank_trim, hleft])
  rw [Option.bind_some] at hread'
  cases herase : s.eraseComment with
  | none => exact absurd (herase ▸ hread') (Statement.read_ne_none hblank)
  | some s' =>
    rw [herase] at hread'
    obtain ⟨c', hstep, hind, hgrows'⟩ := h.compact.step_of_takes htakes' hjc hread'
    refine ⟨c', jc.lines, hstep, ⟨h.formatted.step hb hs, h.compact.step hleft hstep, ?_, ?_, ?_⟩, htogether.lines⟩
    · rw [hgrows'.view, hgrows.view, eraseView_append, h.view]
      simp [eraseView, herase]
    · rw [hind]
      exact htrails
    · intro e he
      rw [hgrows.admits_iff] at he
      rw [hgrows'.admits_iff, Statement.isHeading_of_eraseComment herase]
      exact he

/-- **A remark is read by one of them**, and the other one stays where it is. -/
theorem Mirrors.remark {f c f' : Reader} {line : Line} {lines : List Line} {skip : Nat} (h : Mirrors f c)
    (hmeet : Meeting (line.text :: lines.map Line.text)) (hremark : isRemark line.text = true)
    (hb : allBlank line.text = false) (hs : f.step false line lines = (f', .ok skip)) : skip = 0 ∧ Mirrors f' c := by
  obtain ⟨style, n, d, jf, s, htakes, hj, hread, rfl, hgrows⟩ := h.formatted.step_takes hb hs
  obtain ⟨hind, rfl⟩ := hj.of_ends (hmeet.ends_of_remark hremark hb [])
  -- nothing is left of it without the comment
  have hread' := @Statement.read_together _ { text := [], lines := 0 }
    (by rw [Comment.trim_code_trim, trim_eq_nil_iff.2 (code_of_remark hremark)]; rfl) _ hread
  have herase : s.eraseComment = none := by
    have : Statement.read true [] = .ok none := rfl
    rw [this, Except.ok.injEq] at hread'
    exact hread'.symm
  refine ⟨rfl, h.formatted.step hb hs, h.compact, ?_, ?_, ?_⟩
  · rw [hgrows.view, eraseView_append, ← h.view]
    simp [eraseView, herase]
  · rw [hind]
    exact h.trails.settle_right htakes.measures.agrees
  · intro e he
    have hleaf : s.isHeading = false := by
      cases s with
      | leaf item => rfl
      | heading heading => cases herase
    rw [hgrows.admits_iff, hleaf] at he
    exact (h.opens d htakes.admits).of_le (he.resolve_right fun he => by cases he.2)

/-- **What the reader of comments accepts the other one accepts**, and the forests are the same but for the comments. -/
theorem Mirrors.runs {lines : List Line} {skip : Nat} {f f' : Reader} (hrun : Reader.Runs false skip f lines f') :
    ∀ {lefts : List Line} {c : Reader}, List.Forall₂ Seen lines lefts → Meeting (lines.map Line.text) → Mirrors f c →
      ∃ c', Reader.Runs true skip c lefts c' ∧ Mirrors f' c' := by
  induction hrun with
  | done =>
    rintro lefts c ⟨⟩ - h
    exact ⟨c, .done, h⟩
  | pass _ ih =>
    rintro lefts c (_ | ⟨-, hseen⟩) hmeet h
    obtain ⟨c', hrun, hend⟩ := ih hseen hmeet.tail h
    exact ⟨c', .pass hrun, hend⟩
  | blank hb _ ih =>
    rintro lefts c (_ | ⟨hl, hseen⟩) hmeet h
    obtain ⟨c', hrun, hend⟩ := ih hseen hmeet.tail h
    exact ⟨c', .blank (hl.blank hb) hrun, hend⟩
  | step hb hs _ ih =>
    rintro lefts c (_ | ⟨hl, hseen⟩) hmeet h
    rcases remark_or_code hb with hremark | hcode
    · obtain ⟨rfl, hnext⟩ := h.remark hmeet hremark hb hs
      obtain ⟨c', hrun, hend⟩ := ih hseen hmeet.tail hnext
      exact ⟨c', .blank (hl.remark hremark) hrun, hend⟩
    · obtain ⟨next, skip', hstep, hnext, hskip⟩ := h.statement hl hcode hseen hmeet hs
      obtain ⟨c', hrun, hend⟩ := ih hseen hmeet.tail hnext
      refine ⟨c', .step (hl.allBlank_left.trans hcode) hstep ?_, hend⟩
      rcases hskip with rfl | ⟨rfl, blank, hat, hblank⟩
      · exact hrun
      · exact (Reader.Runs.of_blank hblank hat).2 hrun

end Offside
