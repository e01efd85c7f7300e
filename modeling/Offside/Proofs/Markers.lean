import Offside.Outline
import Offside.Proofs.Trim

/-!
# Where the comment of a line begins

`Comment.extract` looks for the first marker outside quotes.  Here the same search
is a recursion on the text, with the open quote as its state (`Comment.code`: what
stands before the marker), so that it can be followed over texts that are trimmed
or put together.
-/
namespace Offside
namespace Comment

/-- The quote that is open after a character; `escaped` says that a backslash stood before it. -/
def quoteStep (quote : Option Char) (escaped : Bool) (c : Char) : Option Char :=
  match quote with
  | some q => if c == q && !escaped then none else some q
  | none => if Nesting.isQuote c && !escaped then some c else none

def quoteAfter : (quote : Option Char) → (escaped : Bool) → List Char → Option Char
  | quote, _, [] => quote
  | quote, escaped, c :: cs => quoteAfter (quoteStep quote escaped c) (c == '\\') cs

def escapedAfter (escaped : Bool) (cs : List Char) : Bool :=
  match cs.getLast? with
  | none => escaped
  | some c => c == '\\'

/-- Every quote that is opened in the text is closed in it. -/
def quotesClosed (cs : List Char) : Bool := quoteAfter none false cs == none

/-- A comment marker stands at the front. -/
def markerAt : List Char → Bool
  | a :: b :: _ => a == '/' && (b == '/' || b == '*')
  | _ => false

def codeFrom : (quote : Option Char) → (escaped : Bool) → List Char → List Char
  | _, _, [] => []
  | quote, escaped, c :: cs =>
    if quote == none && markerAt (c :: cs) then [] else c :: codeFrom (quoteStep quote escaped c) (c == '\\') cs

/-- The text before the first comment marker outside quotes. -/
def code (cs : List Char) : List Char := codeFrom none false cs

/-- What begins with that marker. -/
def tail (cs : List Char) : List Char := cs.drop (code cs).length

theorem codeFrom_isPrefix : ∀ (quote : Option Char) (escaped : Bool) (cs : List Char),
    codeFrom quote escaped cs <+: cs
  | _, _, [] => List.nil_prefix
  | quote, escaped, c :: cs => by
    rw [codeFrom]
    split
    · exact List.nil_prefix
    · rw [List.cons_prefix_cons]
      exact ⟨rfl, codeFrom_isPrefix _ _ cs⟩

theorem code_append_tail (cs : List Char) : code cs ++ tail cs = cs :=
  List.prefix_iff_eq_append.1 (codeFrom_isPrefix none false cs)

theorem tail_eq_nil_iff {cs : List Char} : tail cs = [] ↔ code cs = cs := by
  have h := code_append_tail cs
  constructor
  · intro hn
    rwa [hn, List.append_nil] at h
  · intro he
    rw [tail, he, List.drop_length]

theorem markerAt_drop : ∀ {cs : List Char} {quote : Option Char} {escaped : Bool}, codeFrom quote escaped cs ≠ cs →
    markerAt (cs.drop (codeFrom quote escaped cs).length) = true
  | [], _, _, h => absurd rfl h
  | c :: cs, quote, escaped, h => by
    rw [codeFrom] at h ⊢
    split at h
    · rename_i hm
      rw [if_pos hm]
      exact (Bool.and_eq_true _ _ ▸ hm).2
    · rename_i hm
      rw [if_neg hm, List.length_cons, List.drop_succ_cons]
      exact markerAt_drop fun he => h (by rw [he])

/-- What is cut off begins with a marker. -/
theorem exists_tail {cs : List Char} (h : code cs ≠ cs) :
    ∃ d rest, tail cs = '/' :: d :: rest ∧ (d = '/' ∨ d = '*') := by
  have hm : markerAt (tail cs) = true := markerAt_drop h
  unfold markerAt at hm
  split at hm
  · rename_i a d rest he
    simp only [Bool.and_eq_true, Bool.or_eq_true, beq_iff_eq] at hm
    exact ⟨d, rest, by rw [he, hm.1], hm.2⟩
  · cases hm

/-! ## The search on marks -/

/-- In the mode of comments a character is at top level unless it opens, closes or stands in quotes. -/
theorem step_comments (n : Nesting) (escaped : Bool) (c : Char) :
    n.step .comments escaped c =
      ({ n with quote := quoteStep n.quote escaped c }, n.quote == none && !(Nesting.isQuote c && !escaped)) := by
  obtain ⟨quote, round, square⟩ := n
  cases quote with
  | none => by_cases h : (Nesting.isQuote c && !escaped) = true <;> simp [Nesting.step, quoteStep, ScanMode.comments, h]
  | some q => by_cases h : (c == q && !escaped) = true <;> simp [Nesting.step, quoteStep, h]

theorem marksFrom_comments (n : Nesting) (escaped : Bool) (c : Char) (cs : List Char) :
    marksFrom .comments n escaped (c :: cs) = (n.quote == none && !(Nesting.isQuote c && !escaped)) ::
      marksFrom .comments { n with quote := quoteStep n.quote escaped c } (c == '\\') cs := by
  rw [marksFrom, step_comments]
  rfl

/-- A slash is no quote, so at a marker being outside quotes is being at top level. -/
theorem top_and_marker (quote : Option Char) (escaped : Bool) (c : Char) (cs : List Char) :
    ((quote == none && !(Nesting.isQuote c && !escaped)) && c == '/' &&
      (cs.head? == some '/' || cs.head? == some '*')) =
      (quote == none && markerAt (c :: cs)) := by
  by_cases hc : c = '/'
  · subst hc
    cases cs <;> simp [markerAt, show Nesting.isQuote '/' = false by decide]
  · have hslash : (c == '/') = false := beq_eq_false_iff_ne.2 hc
    cases cs <;> simp [markerAt, hslash]

theorem startIn_marked : ∀ (cs : List Char) (n : Nesting) (escaped : Bool),
    startIn (cs.zip (marksFrom .comments n escaped cs)) =
      if codeFrom n.quote escaped cs = cs then none else some (codeFrom n.quote escaped cs).length
  | [], _, _ => rfl
  | c :: cs, n, escaped => by
    have ih := startIn_marked cs { n with quote := quoteStep n.quote escaped c } (c == '\\')
    rw [marksFrom_comments, List.zip_cons_cons, startIn]
    rw [← List.head?_map, List.map_fst_zip (Nat.le_of_eq (marksFrom_length _ _ _ _).symm), top_and_marker, ih, codeFrom]
    split
    · simp
    · simp only [List.cons.injEq, true_and]
      split <;> simp

theorem start?_eq (cs : List Char) : start? cs = if code cs = cs then none else some (code cs).length :=
  startIn_marked cs Nesting.outside false

/-- **What is taken off a line**, in terms of its first marker. -/
theorem extract_eq (cs : List Char) :
    extract cs = if code cs = cs then (trim cs, none) else (trimRight (code cs), some (ofTail (tail cs))) := by
  have htake : cs.take (code cs).length = code cs := (List.prefix_iff_eq_take.1 (codeFrom_isPrefix none false cs)).symm
  rw [extract, start?_eq]
  split
  · rename_i h
    split at h
    · rename_i he
      rw [if_pos he]
    · cases h
  · rename_i start h
    split at h
    · cases h
    · rename_i he
      rw [Option.some.injEq] at h
      rw [if_neg he, ← h, htake, tail]

theorem trim_extract (cs : List Char) : trim (extract cs).1 = trim (code cs) := by
  rw [extract_eq]
  split
  · rename_i h
    rw [h, trim_trim]
  · exact trim_trimRight _

theorem extract_eq_none_iff {cs : List Char} : (extract cs).2 = none ↔ code cs = cs := by
  rw [extract_eq]
  split <;> simp_all

/-! ## Texts put together -/

theorem quoteAfter_append : ∀ (quote : Option Char) (escaped : Bool) (a b : List Char),
    quoteAfter quote escaped (a ++ b) = quoteAfter (quoteAfter quote escaped a) (escapedAfter escaped a) b
  | _, _, [], _ => rfl
  | quote, escaped, [c], b => rfl
  | quote, escaped, c :: d :: cs, b => by
    rw [List.cons_append, quoteAfter, quoteAfter_append _ _ (d :: cs) b, quoteAfter]
    rfl

/-- No marker stands where two texts meet. -/
def apart (a b : List Char) : Prop := a.getLast? ≠ some '/' ∨ (b.head? ≠ some '/' ∧ b.head? ≠ some '*')

theorem markerAt_append {c : Char} {cs b : List Char} (h : apart (c :: cs) b) :
    markerAt (c :: cs ++ b) = markerAt (c :: cs) := by
  cases cs with
  | cons d ds => rfl
  | nil =>
    cases b with
    | nil => rfl
    | cons d ds =>
      rcases h with h | ⟨h1, h2⟩
      · have hc : c ≠ '/' := fun he => h (by rw [he]; rfl)
        simp [markerAt, hc]
      · have h1 : d ≠ '/' := fun he => h1 (by rw [he]; rfl)
        have h2 : d ≠ '*' := fun he => h2 (by rw [he]; rfl)
        simp [markerAt, h1, h2]

theorem apart_of_cons {c d : Char} {cs b : List Char} (h : apart (c :: d :: cs) b) : apart (d :: cs) b := by
  rwa [apart, List.getLast?_cons_cons] at h

/-- A text without a comment, and what follows it in the state it leaves. -/
theorem codeFrom_append : ∀ (quote : Option Char) (escaped : Bool) (a b : List Char),
    codeFrom quote escaped a = a → apart a b →
      codeFrom quote escaped (a ++ b) = a ++ codeFrom (quoteAfter quote escaped a) (escapedAfter escaped a) b
  | _, _, [], _, _, _ => rfl
  | quote, escaped, c :: cs, b, ha, hab => by
    rw [codeFrom] at ha
    split at ha
    · cases ha
    · rename_i hm
      rw [← markerAt_append hab, List.cons_append] at hm
      have hcs := (List.cons.inj ha).2
      rw [List.cons_append, codeFrom, if_neg hm, quoteAfter]
      cases cs with
      | nil => rfl
      | cons d ds => rw [codeFrom_append _ _ (d :: ds) b hcs (apart_of_cons hab)]; rfl

/-- The first comment hides what follows it. -/
theorem codeFrom_append_of_ne : ∀ (quote : Option Char) (escaped : Bool) (a b : List Char),
    codeFrom quote escaped a ≠ a → codeFrom quote escaped (a ++ b) = codeFrom quote escaped a
  | _, _, [], _, h => absurd rfl h
  | quote, escaped, c :: cs, b, h => by
    rw [codeFrom] at h
    rw [List.cons_append, codeFrom, codeFrom]
    split at h
    · rename_i hm
      have hb : markerAt (c :: (cs ++ b)) = true := by
        cases cs with
        | nil => simp [markerAt] at hm
        | cons d ds => simp only [Bool.and_eq_true] at hm; exact hm.2
      rw [if_pos hm, if_pos (by simp only [Bool.and_eq_true] at hm ⊢; exact ⟨hm.1, hb⟩)]
    · rename_i hm
      have hcs : codeFrom (quoteStep quote escaped c) (c == '\\') cs ≠ cs := fun he => h (by rw [he])
      have hb : markerAt (c :: (cs ++ b)) = markerAt (c :: cs) := by
        cases cs with
        | nil => exact absurd rfl hcs
        | cons d ds => rfl
      rw [hb, if_neg hm, if_neg hm, codeFrom_append_of_ne _ _ cs b hcs]

theorem code_of_isPrefix {a b : List Char} (h : code (a ++ b) = a ++ b) : code a = a := by
  by_contra hne
  have := codeFrom_append_of_ne none false a b hne
  rw [code] at h
  rw [h] at this
  have hp := codeFrom_isPrefix none false a
  rw [← this] at hp
  have hlen := hp.length_le
  rw [List.length_append] at hlen
  have hb : b = [] := List.eq_nil_of_length_eq_zero (by omega)
  subst hb
  rw [List.append_nil] at h
  exact hne h

/-- The code of a line has no marker of its own: cutting the comment off brings no two characters together. -/
theorem codeFrom_codeFrom : ∀ (quote : Option Char) (escaped : Bool) (cs : List Char),
    codeFrom quote escaped (codeFrom quote escaped cs) = codeFrom quote escaped cs
  | _, _, [] => rfl
  | quote, escaped, c :: cs => by
    have ih := codeFrom_codeFrom (quoteStep quote escaped c) (c == '\\') cs
    rw [codeFrom]
    by_cases hm : (quote == none && markerAt (c :: cs)) = true
    · rw [if_pos hm]
      rfl
    · rw [if_neg hm, codeFrom, ih, if_neg]
      obtain ⟨more, hmore⟩ := codeFrom_isPrefix (quoteStep quote escaped c) (c == '\\') cs
      generalize codeFrom (quoteStep quote escaped c) (c == '\\') cs = kept at hmore ⊢
      subst hmore
      cases kept with
      | nil => simp [markerAt]
      | cons d ds => exact hm

/-! ## Blanks around a text -/

theorem not_quote_of_blank {c : Char} (h : isBlank c = true) : Nesting.isQuote c = false := by
  rw [← Bool.not_eq_true]
  intro hq
  simp only [Nesting.isQuote, Bool.or_eq_true, beq_iff_eq] at hq
  rcases hq with rfl | rfl <;> revert h <;> decide

theorem codeFrom_of_blank {b : List Char} (hb : allBlank b = true) (quote : Option Char) (escaped : Bool) :
    codeFrom quote escaped b = b := by
  induction b generalizing quote escaped with
  | nil => rfl
  | cons c cs ih =>
    have hc : c ≠ '/' := by
      rintro rfl
      exact absurd (allBlank_iff.1 hb '/' List.mem_cons_self) (by decide)
    have hm : markerAt (c :: cs) = false := by cases cs <;> simp [markerAt, hc]
    rw [codeFrom, hm, Bool.and_false, if_neg Bool.false_ne_true,
      ih (allBlank_iff.2 fun d hd => allBlank_iff.1 hb d (List.mem_cons_of_mem c hd))]

theorem quoteAfter_of_no_quotes {cs : List Char} (h : ∀ c ∈ cs, Nesting.isQuote c = false) {quote : Option Char}
    (hq : ∀ q ∈ quote, Nesting.isQuote q = true) (escaped : Bool) : quoteAfter quote escaped cs = quote := by
  induction cs generalizing escaped with
  | nil => rfl
  | cons c cs ih =>
    have hc := h c List.mem_cons_self
    have hstep : quoteStep quote escaped c = quote := by
      cases quote with
      | none => simp [quoteStep, hc]
      | some q =>
        have hne : c ≠ q := by
          rintro rfl
          rw [hq c rfl] at hc
          cases hc
        simp [quoteStep, hne]
    rw [quoteAfter, hstep, ih fun d hd => h d (List.mem_cons_of_mem c hd)]

theorem quote_of_quoteStep {quote : Option Char} {escaped : Bool} {c : Char}
    (h : ∀ q ∈ quote, Nesting.isQuote q = true) : ∀ q ∈ quoteStep quote escaped c, Nesting.isQuote q = true := by
  intro q hq
  unfold quoteStep at hq
  split at hq
  · split at hq
    · cases hq
    · exact h q hq
  · split at hq
    · rename_i hc
      rw [Bool.and_eq_true] at hc
      cases hq
      exact hc.1
    · cases hq

theorem quote_of_quoteAfter : ∀ {cs : List Char} {quote : Option Char} {escaped : Bool},
    (∀ q ∈ quote, Nesting.isQuote q = true) → ∀ q ∈ quoteAfter quote escaped cs, Nesting.isQuote q = true
  | [], _, _, h => h
  | c :: cs, quote, escaped, h => @quote_of_quoteAfter cs (quoteStep quote escaped c) _ (quote_of_quoteStep h)

/-- No slash stands right before the first marker: the marker would begin with it. -/
theorem getLast?_codeFrom : ∀ {cs : List Char} {quote : Option Char} {escaped : Bool},
    (∀ q ∈ quote, Nesting.isQuote q = true) → codeFrom quote escaped cs ≠ cs →
      (codeFrom quote escaped cs).getLast? ≠ some '/'
  | [], _, _, _, h => absurd rfl h
  | c :: cs, quote, escaped, hq, h => by
    rw [codeFrom] at h ⊢
    split at h
    · rename_i hm
      rw [if_pos hm]
      simp
    · rename_i hm
      have hcs : codeFrom (quoteStep quote escaped c) (c == '\\') cs ≠ cs := fun he => h (by rw [he])
      have ih := getLast?_codeFrom (quote_of_quoteStep hq) hcs
      rw [if_neg hm]
      cases hrest : codeFrom (quoteStep quote escaped c) (c == '\\') cs with
      | cons d ds => rwa [List.getLast?_cons_cons, ← hrest]
      | nil =>
        -- the marker is right behind `c`
        rw [List.getLast?_singleton, ne_eq, Option.some.injEq]
        rintro rfl
        cases cs with
        | nil => exact hcs rfl
        | cons d ds =>
          rw [codeFrom] at hrest
          split at hrest
          · rename_i hmark
            rw [Bool.and_eq_true, beq_iff_eq] at hmark
            have hd : d = '/' := by
              cases ds with
              | nil => simp [markerAt] at hmark
              | cons e es =>
                have := hmark.2
                simp only [markerAt, Bool.and_eq_true, beq_iff_eq] at this
                exact this.1
            have hnone : quote = none := by
              cases quote with
              | none => rfl
              | some q =>
                have hne : q ≠ '/' := by
                  rintro rfl
                  exact absurd (hq '/' rfl) (by decide)
                simp [quoteStep, Ne.symm hne] at hmark
            rw [hnone, hd] at hm
            exact hm rfl
          · cases hrest

/-- Whatever is put in the place of the comment, no marker stands where it meets the code. -/
theorem apart_code {text b : List Char} (h : tail text = [] → b = []) : apart (code text) b := by
  by_cases ht : tail text = []
  · rw [h ht]
    exact Or.inr (by simp)
  · exact Or.inl (getLast?_codeFrom (fun _ h => by cases h) fun he => ht (tail_eq_nil_iff.2 he))

theorem quoteAfter_of_blank {b : List Char} (hb : allBlank b = true) (escaped : Bool) :
    quoteAfter none escaped b = none :=
  quoteAfter_of_no_quotes (fun c hc => not_quote_of_blank (allBlank_iff.1 hb c hc)) (fun _ h => by cases h) escaped

theorem escapedAfter_of_blank {b : List Char} (hb : allBlank b = true) : escapedAfter false b = false := by
  unfold escapedAfter
  split
  · rfl
  · rename_i c hc
    rw [beq_eq_false_iff_ne]
    rintro rfl
    exact absurd (allBlank_iff.1 hb _ (List.mem_of_getLast? hc)) (by decide)

theorem apart_of_blank_left {a : List Char} (ha : allBlank a = true) (b : List Char) : apart a b :=
  Or.inl fun h => absurd (allBlank_iff.1 ha _ (List.mem_of_getLast? h)) (by decide)

theorem apart_of_blank_right (a : List Char) {b : List Char} (hb : allBlank b = true) : apart a b :=
  Or.inr ⟨fun h => absurd (allBlank_iff.1 hb _ (List.mem_of_head? h)) (by decide),
    fun h => absurd (allBlank_iff.1 hb _ (List.mem_of_head? h)) (by decide)⟩

theorem code_blank_append {a : List Char} (ha : allBlank a = true) (b : List Char) : code (a ++ b) = a ++ code b := by
  rw [code, codeFrom_append none false a b (codeFrom_of_blank ha _ _) (apart_of_blank_left ha b),
    quoteAfter_of_blank ha,
    escapedAfter_of_blank ha, code]

theorem code_append_blank (a : List Char) {b : List Char} (hb : allBlank b = true) :
    code (a ++ b) = if code a = a then a ++ b else code a := by
  split
  · rename_i h
    rw [code, codeFrom_append none false a b h (apart_of_blank_right a hb), codeFrom_of_blank hb]
  · rename_i h
    exact codeFrom_append_of_ne none false a b h

theorem code_trim_iff (cs : List Char) : code (trim cs) = trim cs ↔ code cs = cs := by
  obtain ⟨a, b, ha, hb, he⟩ := exists_append_trim cs
  generalize trim cs = t at he
  rw [he, List.append_assoc, code_blank_append ha, code_append_blank t hb, List.append_cancel_left_eq]
  split
  · simp_all
  · rename_i h
    refine iff_of_false h fun hn => h ?_
    -- the code is no longer than the text itself
    have hlen := (codeFrom_isPrefix none false t).length_le
    rw [show codeFrom none false t = t ++ b from hn, List.length_append] at hlen
    rw [hn, List.eq_nil_of_length_eq_zero (show b.length = 0 by omega), List.append_nil]

theorem trim_code_trim (cs : List Char) : trim (code (trim cs)) = trim (code cs) := by
  obtain ⟨a, b, ha, hb, he⟩ := exists_append_trim cs
  generalize trim cs = t at he
  rw [he, List.append_assoc, code_blank_append ha, trim_append_blank ha, code_append_blank t hb]
  split
  · rename_i h
    rw [h, trim_append_blank_right hb]
  · rfl

/-- The code of a trimmed text begins with something visible, if with anything. -/
theorem trimRight_code_trim (cs : List Char) : trimRight (code (trim cs)) = trim (code cs) := by
  have hleft : trimLeft (code (trim cs)) = code (trim cs) := by
    obtain ⟨b, hb⟩ := codeFrom_isPrefix none false (trim cs)
    cases h : code (trim cs) with
    | nil => rfl
    | cons c ds =>
      refine trimLeft_cons_of_visible (head?_of_trimmed (trim_trim cs) ?_) ds
      rw [← hb, show codeFrom none false (trim cs) = c :: ds from h]
      rfl
  rw [← trim_code_trim, ← congrArg trimRight hleft]
  rfl

theorem quotesClosed_trim (cs : List Char) : quotesClosed (trim cs) = quotesClosed cs := by
  obtain ⟨a, b, ha, hb, he⟩ := exists_append_trim cs
  generalize trim cs = t at he
  have hnone : ∀ q ∈ (none : Option Char), Nesting.isQuote q = true := fun q h => by cases h
  rw [he, quotesClosed, quotesClosed, quoteAfter_append none false (a ++ t) b,
    quoteAfter_of_no_quotes (fun c hc => not_quote_of_blank (allBlank_iff.1 hb c hc)) (quote_of_quoteAfter hnone),
    quoteAfter_append, quoteAfter_of_blank ha, escapedAfter_of_blank ha]

/-! ## Continued lines -/

/-- **What the joining of lines does to the search.**  Where quotes are closed before the comma, a continuation is
searched as if it stood alone. -/
theorem search_joinText {text : List Char} (hcode : code text = text) (hclosed : quotesClosed text = true)
    (hcomma : text.getLast? = some ',') (next : List Char) :
    code (joinText text next) = joinText text (code next) ∧ quotesClosed (joinText text next) = quotesClosed next := by
  obtain ⟨init, rfl⟩ := List.getLast?_eq_some_iff.1 hcomma
  obtain ⟨b, hb, he⟩ := exists_trimRight_append init
  have hinit : code (trimRight init) = trimRight init := by
    refine @code_of_isPrefix _ (b ++ [',']) ?_
    rwa [← List.append_assoc, ← he]
  have hquote : quoteAfter none false (trimRight init) = none := by
    have hall : ∀ c ∈ b ++ [','], Nesting.isQuote c = false := by
      intro c hc
      rcases List.mem_append.1 hc with hc | hc
      · exact not_quote_of_blank (allBlank_iff.1 hb c hc)
      · rw [List.mem_singleton.1 hc]
        decide
    rw [quotesClosed, beq_iff_eq, he, List.append_assoc, quoteAfter_append,
      quoteAfter_of_no_quotes hall (quote_of_quoteAfter fun _ h => by cases h)] at hclosed
    exact hclosed
  have hhead : codeFrom none false (trimRight init ++ [',', ' ']) = trimRight init ++ [',', ' '] := by
    rw [codeFrom_append none false _ _ hinit (Or.inr (by decide)), hquote]
    rfl
  have hafter : quoteAfter none false (trimRight init ++ [',', ' ']) = none := by
    rw [quoteAfter_append, hquote]
    rfl
  have hescaped : escapedAfter false (trimRight init ++ [',', ' ']) = false := by
    simp [escapedAfter]
  have hapart : apart (trimRight init ++ [',', ' ']) next := Or.inl (by simp)
  rw [joinText, joinText, List.dropLast_concat]
  constructor
  · rw [code, codeFrom_append none false _ next hhead hapart, hafter, hescaped, code]
  · rw [quotesClosed, quoteAfter_append, hafter, hescaped, quotesClosed]

end Comment
end Offside
