import Offside.Proofs.Erasure
import Offside.Proofs.Statements
import Offside.Proofs.Strings

/-!
# Statements written again

A statement that was read can be written plainly, its parts with one blank between them
(`Statement.canonical`), and is read from that text again (`Statement.read_canonical`).  Only blanks are
changed, at places where neither the search for a comment (`Comment.code_gap`) nor the search for the
colon (`findTopLevel?_trim`) takes notice of them.
-/
namespace Offside

namespace Statement

/-- The plain text of a statement, without its comment.  A remark has none. -/
def canonical : Statement → Option (List Char)
  | .leaf (.define name value constant _) =>
    some ('$' :: name ++ ':' :: ' ' :: (value ++ if constant then ' ' :: constMark else []))
  | .leaf (.declare property value _) => some (property ++ ':' :: ' ' :: value)
  | .leaf (.remark _) => none
  | .heading (.rule selector _) => some selector
  | .heading (.atRule name params _) => some ('@' :: name ++ ' ' :: params)

theorem canonical_of_eraseComment {s t : Statement} (h : s.eraseComment = some t) : t.canonical = s.canonical := by
  match s with
  | .leaf (.define _ _ _ _) => cases h; rfl
  | .leaf (.declare _ _ _) => cases h; rfl
  | .leaf (.remark _) => cases h
  | .heading (.rule _ _) => cases h; rfl
  | .heading (.atRule _ _ _) => cases h; rfl

theorem exists_eraseComment {s : Statement} {text : List Char} (h : s.canonical = some text) :
    ∃ t, s.eraseComment = some t := by
  match s with
  | .leaf (.define _ _ _ _) => exact ⟨_, rfl⟩
  | .leaf (.declare _ _ _) => exact ⟨_, rfl⟩
  | .leaf (.remark _) => cases h
  | .heading (.rule _ _) => exact ⟨_, rfl⟩
  | .heading (.atRule _ _ _) => exact ⟨_, rfl⟩

end Statement

/-! ## Gaps in a text without a comment -/

namespace Comment

theorem codeFrom_unescaped {c : Char} (hc : Nesting.isQuote c = false) {quote : Option Char}
    (hq : ∀ q ∈ quote, Nesting.isQuote q = true) (escaped escaped' : Bool) (cs : List Char) :
    codeFrom quote escaped (c :: cs) = codeFrom quote escaped' (c :: cs) := by
  have hstep : ∀ escaped, quoteStep quote escaped c = quote := by
    intro escaped
    cases quote with
    | none => simp [quoteStep, hc]
    | some q =>
      have hne : c ≠ q := by
        rintro rfl
        rw [hq c rfl] at hc
        cases hc
      simp [quoteStep, hne]
  rw [codeFrom, codeFrom, hstep, hstep]

/-- Between two texts any blanks will do, if one of the characters they lie between has no part in a marker and neither
is a backslash nor can stand behind one as a quote. -/
theorem code_gap {a b blanks : List Char}
    (hends : (∀ c ∈ a.getLast?, c ≠ '/' ∧ c ≠ '\\') ∨ ∀ c ∈ b.head?, c ≠ '/' ∧ c ≠ '*' ∧ Nesting.isQuote c = false)
    (hblanks : allBlank blanks = true) (h : code (a ++ (blanks ++ b)) = a ++ (blanks ++ b)) (gap : List Char)
    (hgap : allBlank gap = true) : code (a ++ (gap ++ b)) = a ++ (gap ++ b) := by
  have ha : code a = a := code_of_isPrefix h
  have hq : ∀ q ∈ quoteAfter none false a, Nesting.isQuote q = true := quote_of_quoteAfter fun _ h => by cases h
  have hmeet : ∀ {w : List Char}, allBlank w = true → apart a (w ++ b) := by
    intro w hw
    cases w with
    | nil =>
      rcases hends with hlast | hhead
      · exact Or.inl fun hslash => (hlast '/' hslash).1 rfl
      · exact Or.inr ⟨fun hslash => (hhead '/' hslash).1 rfl, fun hstar => (hhead '*' hstar).2.1 rfl⟩
    | cons c w =>
      have hc : allBlank [c] = true := allBlank_iff.2 (by simpa using allBlank_iff.1 hw c List.mem_cons_self)
      have hfront : apart a [c] := apart_of_blank_right a hc
      exact hfront
  -- blanks change nothing in the search but that no backslash is right before what follows
  have hsearch : ∀ {w : List Char}, allBlank w = true → code (a ++ (w ++ b)) =
      a ++ (w ++ codeFrom (quoteAfter none false a) (escapedAfter (escapedAfter false a) w) b) := by
    intro w hw
    rw [code, codeFrom_append none false a _ ha (hmeet hw),
      codeFrom_append _ _ w b (codeFrom_of_blank hw _ _) (apart_of_blank_left hw b),
      quoteAfter_of_no_quotes (fun c hc => not_quote_of_blank (allBlank_iff.1 hw c hc)) hq]
  have hb : codeFrom (quoteAfter none false a) (escapedAfter (escapedAfter false a) blanks) b = b := by
    rw [hsearch hblanks] at h
    exact List.append_cancel_left (List.append_cancel_left h)
  rw [hsearch hgap]
  refine congrArg (a ++ ·) (congrArg (gap ++ ·) ?_)
  rcases hends with hlast | hhead
  · have hfree : escapedAfter false a = false := by
      unfold escapedAfter
      split
      · rfl
      · rename_i c hc
        exact beq_eq_false_iff_ne.2 (hlast c hc).2
    rw [hfree, escapedAfter_of_blank hblanks] at hb
    rw [hfree, escapedAfter_of_blank hgap]
    exact hb
  · cases b with
    | nil => rfl
    | cons c cs => exact (codeFrom_unescaped (hhead c rfl).2.2 hq _ _ cs).trans hb

theorem code_gap_behind {a b blanks : List Char} {d : Char} (hd : d ≠ '/' ∧ d ≠ '\\') (hblanks : allBlank blanks = true)
    (h : code (a ++ d :: (blanks ++ b)) = a ++ d :: (blanks ++ b)) (gap : List Char) (hgap : allBlank gap = true) :
    code (a ++ d :: (gap ++ b)) = a ++ d :: (gap ++ b) := by
  have hlast : ∀ c ∈ (a ++ [d]).getLast?, c ≠ '/' ∧ c ≠ '\\' := by
    rw [List.getLast?_concat]
    rintro c hc
    cases hc
    exact hd
  rw [List.append_cons] at h ⊢
  exact code_gap (Or.inl hlast) hblanks h gap hgap

theorem code_gap_before {a b blanks : List Char} {d : Char} (hd : d ≠ '/' ∧ d ≠ '*' ∧ Nesting.isQuote d = false)
    (hblanks : allBlank blanks = true) (h : code (a ++ (blanks ++ d :: b)) = a ++ (blanks ++ d :: b)) (gap : List Char)
    (hgap : allBlank gap = true) : code (a ++ (gap ++ d :: b)) = a ++ (gap ++ d :: b) :=
  code_gap (Or.inr fun c hc => by cases hc; exact hd) hblanks h gap hgap

theorem code_colon {key value a b c d : List Char} (hb : allBlank b = true) (hc : allBlank c = true)
    (h : code (a ++ (key ++ (b ++ ':' :: (c ++ (value ++ d))))) = a ++ (key ++ (b ++ ':' :: (c ++ (value ++ d))))) :
    code (a ++ (key ++ ':' :: ' ' :: (value ++ d))) = a ++ (key ++ ':' :: ' ' :: (value ++ d)) := by
  rw [← List.append_assoc a key] at h ⊢
  have h := code_gap_before (by decide) hb h [] rfl
  exact code_gap_behind (by decide) hc h [' '] rfl

end Comment

open Comment

namespace Statement

section

variable {comment : Option Comment} {main : List Char} {s : Statement}

theorem splitConst_append (front : List Char) : splitConst (front ++ constMark) = (trim front, true) := by
  simp [splitConst, List.isSuffixOf_iff_suffix]

theorem splitConst_cases (value : List Char) :
    (∃ front, value = front ++ constMark) ∨ splitConst value = (value, false) := by
  unfold splitConst
  by_cases h : constMark.isSuffixOf value = true
  · obtain ⟨front, rfl⟩ := List.isSuffixOf_iff_suffix.1 h
    exact Or.inl ⟨front, rfl⟩
  · exact Or.inr (if_neg h)

/-! One lemma for each kind of statement: the plain text has no comment if the text it is read from has none. -/

theorem code_declare {before behind : List Char} (h : code (before ++ ':' :: behind) = before ++ ':' :: behind) :
    code (trim before ++ ':' :: ' ' :: trim behind) = trim before ++ ':' :: ' ' :: trim behind := by
  obtain ⟨a, b, ha, hb, hbefore⟩ := exists_append_trim before
  obtain ⟨c, d, hc, -, hbehind⟩ := exists_append_trim behind
  generalize trim before = property at hbefore ⊢
  generalize trim behind = value at hbehind ⊢
  subst hbefore hbehind
  rw [List.append_assoc, List.append_assoc, code_blank_append ha] at h
  have hplain := code_colon (a := []) hb hc (by simpa using List.append_cancel_left h)
  exact code_of_isPrefix (b := d) (by simpa using hplain)

theorem code_define {before behind : List Char}
    (h : code ('$' :: (before ++ ':' :: behind)) = '$' :: (before ++ ':' :: behind)) :
    code ('$' :: (trim before ++ ':' :: ' ' :: trim behind)) = '$' :: (trim before ++ ':' :: ' ' :: trim behind) := by
  obtain ⟨a, b, ha, hb, hbefore⟩ := exists_append_trim before
  obtain ⟨c, d, hc, -, hbehind⟩ := exists_append_trim behind
  generalize trim before = name at hbefore ⊢
  generalize trim behind = value at hbehind ⊢
  subst hbefore hbehind
  have hname := code_gap_behind (a := []) (d := '$') (by decide) ha (by simpa using h) [] rfl
  have hplain := code_colon (a := ['$']) hb hc (by simpa using hname)
  exact code_of_isPrefix (b := d) (by simpa using hplain)

theorem code_constant {name front : List Char}
    (h : code ('$' :: (name ++ ':' :: ' ' :: (front ++ constMark))) = '$' :: (name ++ ':' :: ' ' :: (front ++ constMark))) :
    code ('$' :: (name ++ ':' :: ' ' :: (trim front ++ ' ' :: constMark))) =
      '$' :: (name ++ ':' :: ' ' :: (trim front ++ ' ' :: constMark)) := by
  obtain ⟨a, b, ha, hb, hfront⟩ := exists_append_trim front
  generalize trim front = value at hfront ⊢
  subst hfront
  have hvalue := @code_gap_behind ('$' :: name) (value ++ (b ++ constMark)) (' ' :: a) ':' (by decide) ha
    (by simpa using h) [' '] rfl
  have hhead : ∀ c ∈ constMark.head?, c ≠ '/' ∧ c ≠ '*' ∧ Nesting.isQuote c = false := by
    intro c hc
    obtain rfl : '!' = c := Option.some.inj hc
    decide
  have hmark := code_gap (a := '$' :: (name ++ ':' :: ' ' :: value)) (b := constMark) (Or.inr hhead) hb
    (by simpa using hvalue) [' '] rfl
  simpa using hmark

theorem code_atRule {rest name params : List Char} (hrest : trim rest = name ++ params)
    (hname : ∀ c ∈ name, isNameChar c = true) (h : code ('@' :: rest) = '@' :: rest) :
    code ('@' :: (name ++ ' ' :: trim params)) = '@' :: (name ++ ' ' :: trim params) := by
  obtain ⟨a, b, ha, -, hbody⟩ := exists_append_trim rest
  obtain ⟨c, d, hc, -, hparams⟩ := exists_append_trim params
  rw [hrest] at hbody
  generalize trim params = value at hparams ⊢
  subst hbody hparams
  have hfront := code_gap_behind (a := []) (d := '@') (by decide) ha (by simpa using h) [] rfl
  have hlast : ∀ e ∈ ('@' :: name).getLast?, e ≠ '/' ∧ e ≠ '\\' := by
    intro e he
    rcases List.mem_cons.1 (List.mem_of_getLast? he) with rfl | hmem
    · decide
    · have hchar := hname e hmem
      constructor <;> rintro rfl <;> exact absurd hchar (by decide)
  have hplain := code_gap (Or.inl hlast) hc (by simpa using hfront) [' '] rfl
  exact code_of_isPrefix (b := d ++ b) (by simpa using hplain)

theorem Reads.code_canonical (h : Reads comment main s) (hcode : code main = main) {text : List Char}
    (ht : s.canonical = some text) : code text = text := by
  cases h with
  | remark _ => cases ht
  | rule =>
    cases ht
    exact hcode
  | declare _ =>
    cases ht
    exact code_declare hcode
  | @define before behind _ =>
    have hplain := code_define hcode
    cases ht
    rcases splitConst_cases (trim behind) with ⟨front, hfront⟩ | hsplit
    · rw [hfront] at hplain
      rw [hfront, splitConst_append]
      simpa using code_constant hplain
    · rw [hsplit]
      simpa using hplain
  | atRule hrest hname =>
    cases ht
    exact code_atRule hrest hname hcode

end

end Statement

/-! ## Blanks around a key -/

namespace Nesting

theorem step_of_blank {c : Char} (hc : isBlank c = true) {n : Nesting} (hn : ∀ q ∈ n.quote, isQuote q = true) :
    (n.step .delimiters false c).1 = n := by
  have hquote := not_quote_of_blank hc
  have hbracket : c ≠ '(' ∧ c ≠ '[' ∧ c ≠ ')' ∧ c ≠ ']' := by
    refine ⟨?_, ?_, ?_, ?_⟩ <;> rintro rfl <;> exact absurd hc (by decide)
  unfold step
  cases hq : n.quote with
  | some q =>
    have hne : c ≠ q := by
      rintro rfl
      rw [hn c hq] at hquote
      cases hquote
    simp [hne]
  | none => simp [hquote, hbracket, ScanMode.delimiters]

theorem run_of_blank : ∀ {w : List Char}, allBlank w = true → ∀ {n : Nesting}, (∀ q ∈ n.quote, isQuote q = true) →
    n.run w = n
  | [], _, _, _ => rfl
  | c :: w, hw, n, hn => by
    rw [allBlank_iff, List.forall_mem_cons] at hw
    have ih := run_of_blank (allBlank_iff.2 hw.2) hn
    unfold run at ih ⊢
    rw [List.foldl_cons, step_of_blank hw.1 hn, ih]

theorem run_outside_isQuote (cs : List Char) : ∀ q ∈ (outside.run cs).quote, isQuote q = true := by
  rw [run_quote]
  exact openQuote_isQuote fun _ h => by cases h

theorem run_trim (cs : List Char) : outside.run (trim cs) = outside.run cs := by
  obtain ⟨a, b, ha, hb, he⟩ := exists_append_trim cs
  have hfront : outside.run (a ++ trim cs) = outside.run (trim cs) := by
    rw [run_append, run_of_blank ha fun _ h => by cases h]
  conv_rhs => rw [he, run_append, hfront, run_of_blank hb (run_outside_isQuote _)]

end Nesting

theorem marked_append (a b : List Char) : marked .delimiters (a ++ b) =
    marked .delimiters a ++ b.zip (marksFrom .delimiters (Nesting.outside.run a) false b) := by
  unfold marked marks
  rw [Nesting.marksFrom_append, List.zip_append (marksFrom_length _ _ _ _).symm]

theorem marked_blank_append {w : List Char} (hw : allBlank w = true) (cs : List Char) :
    marked .delimiters (w ++ cs) = marked .delimiters w ++ marked .delimiters cs := by
  rw [marked_append, Nesting.run_of_blank hw fun _ h => by cases h]
  rfl

theorem marked_trim_isInfix (cs : List Char) : marked .delimiters (trim cs) <:+: marked .delimiters cs := by
  obtain ⟨a, b, ha, -, he⟩ := exists_append_trim cs
  conv_rhs => rw [he, marked_append, marked_blank_append ha]
  exact ⟨_, _, rfl⟩

theorem findIdx?_append_cons {α : Type} {p : α → Bool} {as bs : List α} {a : α} :
    (as ++ a :: bs).findIdx? p = some as.length ↔ (∀ c ∈ as, p c = false) ∧ p a = true := by
  constructor
  · intro h
    obtain ⟨before, c, behind, he, hlength, hc, hbefore⟩ := exists_append_of_findIdx? h
    obtain ⟨rfl, htail⟩ := List.append_inj he hlength.symm
    cases htail
    exact ⟨hbefore, hc⟩
  · rintro ⟨hnone, ha⟩
    rw [List.findIdx?_append, List.findIdx?_eq_none_iff.2 hnone]
    simp [List.findIdx?_cons, ha]

/-- Where the first cut is, by what stands before it. -/
theorem findTopLevel?_append_cons {target : Char} (before behind : List Char) :
    findTopLevel? target (before ++ target :: behind) = some before.length ↔
      (∀ m ∈ marked .delimiters before, isCut target m = false) ∧
        ((Nesting.outside.run before).step .delimiters false target).2 = true := by
  have hlength : before.length = (marked .delimiters before).length := by simp [marked]
  rw [findTopLevel?, marked_append, marksFrom, List.zip_cons_cons, hlength, findIdx?_append_cons]
  simp [isCut]

theorem findTopLevel?_trim {target : Char} {before behind : List Char}
    (h : findTopLevel? target (before ++ target :: behind) = some before.length) (rest : List Char) :
    findTopLevel? target (trim before ++ target :: rest) = some (trim before).length := by
  rw [findTopLevel?_append_cons] at h ⊢
  rw [Nesting.run_trim]
  exact ⟨fun m hm => h.1 m ((marked_trim_isInfix before).subset hm), h.2⟩

/-! ## Reading the plain text -/

theorem not_blank_of_nameChar {c : Char} (h : isNameChar c = true) : isBlank c = false := by
  have hrange : c.toNat = 45 ∨ (48 ≤ c.toNat ∧ c.toNat ≤ 122) := by
    simp only [isNameChar, Bool.or_eq_true, beq_iff_eq] at h
    rcases h with (h | rfl) | rfl
    · change (decide (65 ≤ c.toNat ∧ c.toNat ≤ 90) || (decide (97 ≤ c.toNat) && decide (c.toNat ≤ 122)) ||
        (decide (48 ≤ c.toNat) && decide (c.toNat ≤ 57))) = true at h
      simp only [Bool.or_eq_true, Bool.and_eq_true, decide_eq_true_eq] at h
      omega
    · decide
    · decide
  rw [← Bool.not_eq_true]
  intro hblank
  simp [isBlank, blankRuns] at hblank
  omega

namespace Statement

section

variable {comment : Option Comment} {main : List Char} {s : Statement}

theorem readDefine_of_cut {before behind : List Char} (hcolon : ':' ∉ before) (hname : trim before ≠ []) :
    readDefine ('$' :: (before ++ ':' :: behind)) comment =
      .ok (.leaf (.define (trim before) (splitConst (trim behind)).1 (splitConst (trim behind)).2 comment)) := by
  have hnone : ∀ c ∈ '$' :: before, (c == ':') = false := by
    rw [List.forall_mem_cons]
    exact ⟨by decide, fun c hc => beq_eq_false_iff_ne.2 fun he => hcolon (he ▸ hc)⟩
  have hfind : ('$' :: before ++ ':' :: behind).findIdx? (· == ':') = some (before.length + 1) :=
    findIdx?_append_cons.2 ⟨hnone, rfl⟩
  have hdrop : (before ++ ':' :: behind).drop (before.length + 1) = behind := by simp
  unfold readDefine
  rw [← List.cons_append, hfind]
  simp only [List.cons_append, List.take_succ_cons, List.take_left, List.drop_succ_cons, List.drop_zero, hdrop]

/-- A value and its mark, written with one blank between them. -/
theorem splitConst_plain (value : List Char) :
    splitConst (trim ((splitConst (trim value)).1 ++
      if (splitConst (trim value)).2 = true then ' ' :: constMark else [])) = splitConst (trim value) := by
  rcases splitConst_cases (trim value) with ⟨front, hfront⟩ | hsplit
  · have hmark : trim ((trim front ++ [' ']) ++ constMark) = trimLeft (trim front ++ [' ']) ++ constMark :=
      trim_append_cons (by decide) _ _
    rw [hfront, splitConst_append]
    change splitConst (trim (trim front ++ ' ' :: constMark)) = (trim front, true)
    rw [List.append_cons, hmark, splitConst_append, trim_trimLeft, trim_append_blank_right rfl, trim_trim]
  · rw [hsplit]
    simpa using hsplit

theorem readPlain_of_cut {before behind : List Char}
    (hcolon : findTopLevel? ':' (before ++ ':' :: ' ' :: behind) = some before.length) (hproperty : trim before ≠ [])
    (hvalue : trim behind ≠ []) :
    readPlain (before ++ ':' :: ' ' :: behind) comment = .ok (.leaf (.declare (trim before) (trim behind) comment)) := by
  have hdrop : (before ++ ':' :: ' ' :: behind).drop (before.length + 1) = ' ' :: behind := by simp
  unfold readPlain
  rw [hcolon]
  simp only [hdrop, trim_cons_of_blank (c := ' ') rfl, List.take_left, List.head?_cons, beq_self_eq_true, Bool.true_or,
    ↓reduceIte]

theorem readAtRule_of_name {name params : List Char} (hname : ∀ c ∈ name, isNameChar c = true) (hne : name ≠ []) :
    readAtRule ('@' :: (name ++ ' ' :: params)) comment = .ok (.heading (.atRule name (trim params) comment)) := by
  have hbody : trim (name ++ ' ' :: params) = name ++ trimRight (' ' :: params) := by
    rw [← trimRight_visible_append fun c hc => not_blank_of_nameChar (hname c hc), trim]
    obtain ⟨c, cs, rfl⟩ := List.exists_cons_of_ne_nil hne
    rw [List.cons_append, trimLeft_cons_of_visible (not_blank_of_nameChar (hname c List.mem_cons_self))]
  have hparams : trim (trimRight (' ' :: params)) = trim params := by rw [trim_trimRight, trim_cons_of_blank rfl]
  have hgap : (trimRight (' ' :: params)).takeWhile isNameChar = [] ∧
      (trimRight (' ' :: params)).dropWhile isNameChar = trimRight (' ' :: params) := by
    rw [trimRight]
    split <;> exact ⟨rfl, rfl⟩
  unfold readAtRule
  simp only [List.drop_succ_cons, List.drop_zero, hbody, List.takeWhile_append_of_pos hname,
    List.dropWhile_append_of_pos hname, hgap, List.append_nil, hparams]

theorem readMain_plain (hhead : ∀ c ∈ main.head?, c ≠ '$' ∧ c ≠ '@') (hne : main ≠ []) :
    readMain main comment = (readPlain main comment).map some := by
  unfold readMain
  split
  · exact absurd rfl hne
  · exact absurd rfl (hhead '$' rfl).1
  · exact absurd rfl (hhead '@' rfl).2
  · rfl

/-! One lemma for each kind again: the plain text is read as the statement it was written from. -/

theorem readMain_define {name rest : List Char} (hcolon : ':' ∉ name) (hname : trim name ≠ []) :
    readMain (trim ('$' :: name ++ ':' :: ' ' :: rest)) none =
      .ok (some (.leaf (.define (trim name) (splitConst (trim rest)).1 (splitConst (trim rest)).2 none))) := by
  have hrest : trim (trimRight (' ' :: rest)) = trim rest := by rw [trim_trimRight, trim_cons_of_blank rfl]
  rw [trim_append_cons (by decide), trimLeft_cons_of_visible (by decide), List.cons_append, readMain,
    readDefine_of_cut hcolon hname, hrest]
  rfl

theorem readMain_atRule {name params : List Char} (hname : ∀ c ∈ name, isNameChar c = true) (hne : name ≠ []) :
    readMain (trim ('@' :: name ++ ' ' :: params)) none = .ok (some (.heading (.atRule name (trim params) none))) := by
  have htext : trim ('@' :: name ++ ' ' :: params) = '@' :: trimRight (name ++ ' ' :: params) :=
    trim_append_cons (a := []) (by decide) _
  have hread : readAtRule ('@' :: trimRight (name ++ ' ' :: params)) none = readAtRule ('@' :: (name ++ ' ' :: params)) none := by
    simp only [readAtRule, List.drop_succ_cons, List.drop_zero, trim_trimRight]
  rw [htext, readMain, hread, readAtRule_of_name hname hne]
  rfl

theorem readMain_declare {before behind : List Char}
    (hcolon : findTopLevel? ':' (before ++ ':' :: behind) = some before.length) (hproperty : trim before ≠ [])
    (hvalue : trim behind ≠ []) (hhead : ∀ c ∈ (trim before).head?, c ≠ '$' ∧ c ≠ '@') :
    readMain (trim (trim before ++ ':' :: ' ' :: trim behind)) none =
      .ok (some (.leaf (.declare (trim before) (trim behind) none))) := by
  have hgap : trimRight (' ' :: trim behind) = ' ' :: trim behind := by
    obtain ⟨c, cs, hcs⟩ := List.exists_cons_of_ne_nil hvalue
    rw [trimRight, trimRight_trim, hcs]
  obtain ⟨c, cs, hcs⟩ := List.exists_cons_of_ne_nil hproperty
  have hplain : ∀ d ∈ (trim before ++ ':' :: ' ' :: trim behind).head?, d ≠ '$' ∧ d ≠ '@' := by
    rw [hcs] at hhead ⊢
    exact hhead
  rw [trim_append_cons (by decide), trimLeft_trim, hgap, readMain_plain hplain (by simp),
    readPlain_of_cut (findTopLevel?_trim hcolon _) (by rwa [trim_trim]) (by rwa [trim_trim]), trim_trim, trim_trim]
  rfl

theorem readMain_canonical (hmain : trim main = main) (h : readMain main none = .ok (some s)) {text : List Char}
    (ht : s.canonical = some text) : readMain (trim text) none = .ok (some s) := by
  rcases readMain_ok h with ⟨-, c, hc, -⟩ | ⟨cs, rfl, hread⟩ | ⟨cs, rfl, hread⟩ | ⟨-, hhead, hread⟩
  · cases hc
  · obtain ⟨before, behind, rfl, hcolon, hname, rfl⟩ := readDefine_ok hread
    cases ht
    have hcolon : ':' ∉ trim before := fun hm => hcolon ((trim_isInfix before).subset hm)
    rw [readMain_define hcolon (by rwa [trim_trim]), splitConst_plain, trim_trim]
  · obtain ⟨hne, rfl⟩ := readAtRule_ok hread
    cases ht
    rw [readMain_atRule (fun c hc => List.mem_takeWhile_imp hc) hne, trim_trim]
  · rcases readPlain_ok hread with rfl | ⟨before, behind, rfl, hcolon, hproperty, hvalue, rfl⟩
    · cases ht
      rwa [hmain]
    · cases ht
      refine readMain_declare hcolon hproperty hvalue fun c hc => hhead c ?_
      -- the text is trimmed, so the property begins where it does
      rw [← hmain, trim_append_cons (by decide)]
      rcases trim_cases before with ⟨hnil, -⟩ | ⟨d, ds, -, hleft, htrim⟩
      · exact absurd hnil hproperty
      · rw [htrim] at hc
        rw [hleft]
        exact hc

/-- What a statement without its comment is read from. -/
theorem exists_main {compact : Bool} {content : List Char} (h : read compact content = .ok (some s)) :
    ∃ main, trim main = main ∧ (compact = false → code main = main) ∧ readMain main none = .ok s.eraseComment := by
  cases compact with
  | true =>
    refine ⟨trim content, trim_trim content, fun hc => absurd hc (by decide), ?_⟩
    rw [← readMain_erase _ none, ← read_compact, h]
    rfl
  | false =>
    refine ⟨trim (extract content).1, trim_trim _, fun _ => ?_, ?_⟩
    · rw [trim_extract, code_trim_iff]
      exact codeFrom_codeFrom none false content
    · rw [← readMain_erase _ (extract content).2, ← read_formatted, h]
      rfl

theorem read_of_code {compact : Bool} {text : List Char} (h : compact = false → code text = text) :
    read compact text = readMain (trim text) none := by
  cases compact with
  | true => rfl
  | false => rw [read_formatted, extract_eq, if_pos (h rfl), trim_trim]

end

/-- **A statement is read again from its plain text**, without its comment. -/
theorem read_canonical {compact : Bool} {content text : List Char} {s : Statement}
    (h : read compact content = .ok (some s)) (ht : s.canonical = some text) :
    ∃ plain, s.eraseComment = some plain ∧ read compact text = .ok (some plain) := by
  obtain ⟨main, hmain, hcode, hread⟩ := exists_main h
  obtain ⟨plain, hplain⟩ := exists_eraseComment ht
  rw [hplain] at hread
  rw [← canonical_of_eraseComment hplain] at ht
  refine ⟨plain, hplain, ?_⟩
  rw [read_of_code fun hc => (readMain_reads hread).code_canonical (hcode hc) ht]
  exact readMain_canonical hmain hread ht

/-- The last mark is taken off, and a mark before it is a part of the value. -/
theorem read_canonical_marks :
    let s : Statement := .leaf (.define "\"k\"".toList "'a//b' !const".toList true
      (some { kind := .block, text := "twice".toList, raw := "/* twice */".toList }))
    read false "$ \"k\"  :'a//b' !const  !const/* twice */".toList = .ok (some s) ∧
      s.canonical = some "$\"k\": 'a//b' !const !const".toList ∧
      ∃ plain, s.eraseComment = some plain ∧ read false "$\"k\": 'a//b' !const !const".toList = .ok (some plain) :=
  have h := by decide
  have ht := by decide
  ⟨h, ht, read_canonical h ht⟩

end Statement

end Offside
