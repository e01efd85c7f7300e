import Mathlib.Data.List.Infix
import Offside.Proofs.Breaks

/-!
# Quoted strings

Replacing references, spelling out aliases and squeezing all work on what stands on either side of a
quote apart (`AtQuotes`), so what becomes of a string does not depend on what is around it.  Squeezing
and aliases do reach into strings, which are kept as they are only where there is nothing to squeeze and
no alias.  A selector is never cut inside a string.
-/
namespace Offside

/-- A quoted string: one quote at both ends, and between them no quote and no `$`. -/
structure IsString (q : List Char) : Prop where
  ends : ∃ d body, Nesting.isQuote d = true ∧ q = d :: (body ++ [d]) ∧ ∀ c ∈ body, Nesting.isQuote c = false
  plain : '$' ∉ q

theorem no_quotes_of_any {cs : List Char} (h : cs.any Nesting.isQuote = false) : ∀ c ∈ cs, Nesting.isQuote c = false := by
  simpa using h

theorem quote_cases {d : Char} (h : Nesting.isQuote d = true) : d = '\'' ∨ d = '"' := by
  simpa [Nesting.isQuote] using h

theorem not_blank_of_quote {d : Char} (h : Nesting.isQuote d = true) : isBlank d = false := by
  rcases quote_cases h with rfl | rfl <;> decide

theorem not_nameChar_of_quote {d : Char} (h : Nesting.isQuote d = true) : isNameChar d = false := by
  rcases quote_cases h with rfl | rfl <;> decide

/-! ## Functions that work on both sides of a quote apart -/

/-- The function leaves quotes alone and works on what stands on either side of one apart. -/
structure AtQuotes (f : List Char → List Char) : Prop where
  nil : f [] = []
  cut : ∀ {d : Char}, Nesting.isQuote d = true → ∀ a b, f (a ++ d :: b) = f a ++ d :: f b

namespace AtQuotes

variable {f g : List Char → List Char}

theorem comp (hg : AtQuotes g) (hf : AtQuotes f) : AtQuotes (fun cs => g (f cs)) where
  nil := by rw [hf.nil, hg.nil]
  cut hd a b := by rw [hf.cut hd, hg.cut hd]

/-- A string comes out as a string. -/
theorem string (hf : AtQuotes f) {d : Char} (hd : Nesting.isQuote d = true) (body : List Char) :
    f (d :: (body ++ [d])) = d :: (f body ++ [d]) := by
  have hfront := hf.cut hd [] (body ++ [d])
  rw [hf.nil, List.nil_append, List.nil_append, hf.cut hd, hf.nil] at hfront
  exact hfront

theorem around (hf : AtQuotes f) {d : Char} (hd : Nesting.isQuote d = true) (a body b : List Char) :
    f (a ++ d :: (body ++ [d]) ++ b) = f a ++ d :: (f body ++ [d]) ++ f b := by
  have he : a ++ d :: (body ++ [d]) ++ b = a ++ d :: (body ++ d :: b) := by simp
  rw [he, hf.cut hd, hf.cut hd]
  simp

end AtQuotes

/-! ## Replacing -/

/-- Text behind is replaced apart, if no rule that fits in front looks or reaches into it. -/
theorem replaceFrom_append {α : Type} {rule : List α → Option (Found α)} (b : List α) : ∀ {a : List α} {skip : Nat},
    skip ≤ a.length →
    (∀ u, u <:+ a → u ≠ [] → rule (u ++ b) = rule u ∧ ∀ found, rule u = some found → found.more < u.length) →
      replaceFrom rule skip (a ++ b) = replaceFrom rule skip a ++ replaceFrom rule 0 b
  | [], skip, hskip, _ => by
    obtain rfl : skip = 0 := Nat.le_zero.1 hskip
    simp [replaceFrom]
  | c :: a, skip + 1, hskip, h => by
    rw [List.cons_append, replaceFrom, replaceFrom]
    exact replaceFrom_append b (Nat.le_of_succ_le_succ hskip) fun u hu => h u (hu.trans (List.suffix_cons c a))
  | c :: a, 0, _, h => by
    have ih : ∀ {k : Nat}, k ≤ a.length → replaceFrom rule k (a ++ b) = replaceFrom rule k a ++ replaceFrom rule 0 b :=
      fun hk => replaceFrom_append b hk fun u hu => h u (hu.trans (List.suffix_cons c a))
    obtain ⟨hsame, hmore⟩ := h (c :: a) List.suffix_rfl (by simp)
    rw [List.cons_append] at hsame
    rw [List.cons_append, replaceFrom, replaceFrom, hsame]
    cases hrule : rule (c :: a) with
    | none => simp [ih (Nat.zero_le _)]
    | some found =>
      have hlt := hmore found hrule
      rw [List.length_cons] at hlt
      simp [ih (Nat.le_of_lt_succ hlt)]

/-- **One place where the rule fits, or one character, after the other.** -/
theorem replaceAll_induction {α : Type} {rule : List α → Option (Found α)} {P : List α → List α → Prop} (nil : P [] [])
    (put : ∀ c cs found, rule (c :: cs) = some found → P (cs.drop found.more) (replaceAll rule (cs.drop found.more)) →
      P (c :: cs) (found.put ++ replaceAll rule (cs.drop found.more)))
    (keep : ∀ c cs, rule (c :: cs) = none → P cs (replaceAll rule cs) → P (c :: cs) (c :: replaceAll rule cs))
    (cs : List α) : P cs (replaceAll rule cs) := by
  induction hn : cs.length using Nat.strong_induction_on generalizing cs with
  | _ n ih =>
    subst hn
    cases cs with
    | nil => exact nil
    | cons c cs =>
      have hfrom := replaceFrom_eq_drop rule
      unfold replaceAll at hfrom ⊢
      rw [replaceFrom]
      cases hrule : rule (c :: cs) with
      | none => exact keep c cs hrule (ih cs.length (by simp) cs rfl)
      | some found =>
        simp only [hfrom found.more cs]
        refine put c cs found hrule (ih _ ?_ _ rfl)
        rw [List.length_drop, List.length_cons]
        omega

/-- A character that no rule begins with, looks past or covers is kept, and what stands on both sides is replaced apart. -/
theorem replaceAll_append_cons {α : Type} {rule : List α → Option (Found α)} {d : α} {b : List α} (hd : rule (d :: b) = none)
    (h : ∀ u, u ≠ [] → rule (u ++ d :: b) = rule u ∧ ∀ found, rule u = some found → found.more < u.length) (a : List α) :
    replaceAll rule (a ++ d :: b) = replaceAll rule a ++ d :: replaceAll rule b := by
  unfold replaceAll
  rw [replaceFrom_append (d :: b) (Nat.zero_le _) fun u _ hne => h u hne]
  simp [replaceFrom, hd]

theorem replaceAll_atQuotes {rule : List Char → Option (Found Char)}
    (hquote : ∀ {d : Char}, Nesting.isQuote d = true → ∀ b, rule (d :: b) = none)
    (h : ∀ {d : Char}, Nesting.isQuote d = true → ∀ u b, u ≠ [] →
      rule (u ++ d :: b) = rule u ∧ ∀ found, rule u = some found → found.more < u.length) :
    AtQuotes (replaceAll rule) where
  nil := by simp [replaceAll, replaceFrom]
  cut hd a b := replaceAll_append_cons (hquote hd b) (fun u hne => h hd u b hne) a

theorem takeWhile_append_cons {p : Char → Bool} {d : Char} (hd : p d = false) (b : List Char) : ∀ a : List Char,
    (a ++ d :: b).takeWhile p = a.takeWhile p
  | [] => by simp [hd]
  | c :: a => by
    have ih := takeWhile_append_cons hd b a
    by_cases hc : p c = true <;> simp [hc, ih]

theorem substitute_atQuotes (get? : List Char → Option (List Char)) : AtQuotes (substitute get?) := by
  refine replaceAll_atQuotes (fun {d} hd b => ?_) fun {d} hd u b hne => ?_
  · rcases quote_cases hd with rfl | rfl <;> rfl
  · cases u with
    | nil => exact absurd rfl hne
    | cons c u =>
      by_cases hc : c = '$'
      · subst hc
        have hname := takeWhile_append_cons (not_nameChar_of_quote hd) b u
        refine ⟨by simp only [List.cons_append, referenceAt, hname], fun found hf => ?_⟩
        unfold referenceAt at hf
        split at hf
        · rename_i cs heq
          obtain rfl : u = cs := (List.cons.inj heq).2
          split at hf
          · cases hf
          · cases hf
            exact Nat.lt_succ_of_le (List.takeWhile_prefix _).length_le
        · cases hf
      · have hnone : ∀ cs, referenceAt get? (c :: cs) = none := by
          intro cs
          unfold referenceAt
          split
          · rename_i heq
            exact absurd (List.cons.inj heq).1 hc
          · rfl
        refine ⟨by rw [List.cons_append, hnone, hnone], fun found hf => ?_⟩
        rw [hnone] at hf
        cases hf

theorem substitute_of_not_mem (get? : List Char → Option (List Char)) {cs : List Char} (h : '$' ∉ cs) :
    substitute get? cs = cs := by
  refine replaceAll_of_none fun u hu => ?_
  unfold referenceAt
  split
  · exact absurd (hu.subset List.mem_cons_self) h
  · rfl

namespace Selector

/-- Whether an alias ends before a character does not depend on what follows, if that has no part in a word. -/
theorem aliasAt_append_cons {d : Char} (hcolon : d ≠ ':') (hd : isNameChar d = false) (u b : List Char) :
    aliasAt (u ++ d :: b) = aliasAt u := by
  have hname : d ∉ aliasName := by
    have hall : ∀ c ∈ aliasName, c = ':' ∨ isNameChar c = true := by
      have hword : aliasName.all (fun c => c == ':' || isNameChar c) = true := by decide
      intro c hc
      simpa using List.all_eq_true.1 hword c hc
    intro hm
    rcases hall d hm with h | h
    · exact hcolon h
    · rw [hd] at h
      cases h
  unfold aliasAt
  rw [isPrefixOf_append_cons hname]
  by_cases hp : aliasName.isPrefixOf u = true
  · have hlen := (List.isPrefixOf_iff_prefix.1 hp).length_le
    rw [List.drop_append_of_le_length hlen]
    cases u.drop aliasName.length with
    | nil => simp [hd]
    | cons c cs => simp
  · simp [hp]

/-- Aliases are spelled out on both sides of such a character apart. -/
theorem expand_append_cons {d : Char} (hcolon : d ≠ ':') (hd : isNameChar d = false) (a b : List Char) :
    expand (a ++ d :: b) = expand a ++ d :: expand b := by
  refine replaceAll_append_cons (aliasAt_append_cons hcolon hd [] b) (fun u _ => ?_) a
  refine ⟨aliasAt_append_cons hcolon hd u b, fun found hf => ?_⟩
  unfold aliasAt at hf
  split at hf
  · rename_i hp
    cases hf
    rw [Bool.and_eq_true] at hp
    have hlen := (List.isPrefixOf_iff_prefix.1 hp.1).length_le
    have : aliasName.length = 6 := by decide
    show aliasName.length - 1 < u.length
    omega
  · cases hf

theorem expand_atQuotes : AtQuotes expand where
  nil := rfl
  cut hd a b := by
    refine expand_append_cons ?_ (not_nameChar_of_quote hd) a b
    rcases quote_cases hd with rfl | rfl <;> decide

end Selector

/-! ## Squeezing -/

namespace Squeeze

theorem dropAfterFrom_quote {p : Char → Bool} {d : Char} (hd : Nesting.isQuote d = true) (hp : p d = false)
    (b : List Char) : ∀ (after : Bool) (a : List Char),
      dropAfterFrom p after (a ++ d :: b) = dropAfterFrom p after a ++ d :: dropAfterFrom p false b
  | after, [] => by simp [dropAfterFrom, not_blank_of_quote hd, hp]
  | after, c :: a => by
    rw [List.cons_append, dropAfterFrom, dropAfterFrom]
    split
    · exact dropAfterFrom_quote hd hp b true a
    · rw [dropAfterFrom_quote hd hp b (p c) a, List.cons_append]

theorem dropAfter_atQuotes {p : Char → Bool} (hp : ∀ d, Nesting.isQuote d = true → p d = false) : AtQuotes (dropAfter p) where
  nil := rfl
  cut hd a b := dropAfterFrom_quote hd (hp _ hd) b false a

theorem dropBefore_atQuotes {p : Char → Bool} (hp : ∀ d, Nesting.isQuote d = true → p d = false) :
    AtQuotes (dropBefore p) where
  nil := rfl
  cut {d} hd a b := by
    have hfront : dropBefore p (d :: b) = d :: dropBefore p b := by simp [dropBefore, not_blank_of_quote hd]
    induction a with
    | nil => simp [hfront, dropBefore]
    | cons c a ih =>
      have hhead : (dropBefore p (a ++ d :: b)).head?.any p = (dropBefore p a).head?.any p := by
        rw [ih]
        cases dropBefore p a <;> simp [hp d hd]
      rw [List.cons_append, dropBefore, dropBefore]
      simp only [hhead]
      split
      · exact ih
      · rw [ih, List.cons_append]

theorem collapseRuns_atQuotes : AtQuotes collapseRuns where
  nil := rfl
  cut {d} hd a b := by
    have hblank := not_blank_of_quote hd
    have hfront : collapseRuns (d :: b) = d :: collapseRuns b := by
      rw [collapseRuns]
      cases collapseRuns b <;> simp [hblank]
    induction a with
    | nil => simp [hfront, collapseRuns]
    | cons c a ih =>
      rw [List.cons_append, collapseRuns, collapseRuns, ih]
      cases collapseRuns a with
      | nil => simp [hblank]
      | cons e es =>
        simp only [List.cons_append]
        split <;> rfl

/-- All of the squeezing of a value except for the trimming. -/
def inner (cs : List Char) : List Char :=
  collapseRuns (dropAfter (· == ')') (dropBefore (· == ')') (dropAfter (· == '(') (dropAfter (· == ',') cs))))

theorem value_eq (cs : List Char) : value cs = trim (inner cs) := rfl

theorem inner_atQuotes : AtQuotes inner := by
  have hp : ∀ p : Char, Nesting.isQuote p = false → ∀ d, Nesting.isQuote d = true → (d == p) = false := by
    intro p hp d hd
    rw [beq_eq_false_iff_ne]
    rintro rfl
    rw [hp] at hd
    cases hd
  exact collapseRuns_atQuotes.comp ((dropAfter_atQuotes (hp ')' rfl)).comp ((dropBefore_atQuotes (hp ')' rfl)).comp
    ((dropAfter_atQuotes (hp '(' rfl)).comp (dropAfter_atQuotes (hp ',' rfl)))))

end Squeeze

/-- Trimming takes nothing off a string. -/
theorem trim_around {d : Char} (hd : Nesting.isQuote d = true) (a body b : List Char) :
    trim (a ++ d :: (body ++ [d]) ++ b) = trimLeft a ++ d :: (body ++ [d]) ++ trimRight b := by
  have hblank := not_blank_of_quote hd
  have he : ∀ x y, x ++ d :: (body ++ [d]) ++ y = x ++ d :: body ++ d :: y := by simp
  rw [trim, he, List.append_assoc, List.cons_append, trimLeft_append_cons hblank, he, ← List.cons_append,
    ← List.append_assoc, trimRight_append_cons hblank]

/-- What becomes of a string in a value is the same wherever it stands. -/
theorem Squeeze.value_around {d : Char} (hd : Nesting.isQuote d = true) (a body b : List Char) :
    ∃ x y, value (a ++ d :: (body ++ [d]) ++ b) = x ++ value (d :: (body ++ [d])) ++ y := by
  have halone := trim_around hd [] (inner body) []
  rw [List.nil_append, List.append_nil] at halone
  refine ⟨trimLeft (inner a), trimRight (inner b), ?_⟩
  rw [value_eq, value_eq, inner_atQuotes.around hd, inner_atQuotes.string hd, halone, trim_around hd]
  simp [trimLeft]

/-! ## Nothing to squeeze -/

/-- There are no two blanks in a row, and none behind a comma or a bracket or before a closing one. -/
def Squeeze.settled : List Char → Bool
  | a :: b :: cs =>
    !(isBlank b && (isBlank a || a == ',' || a == '(' || a == ')')) && !(isBlank a && b == ')') && settled (b :: cs)
  | _ => true

namespace Squeeze

theorem settled_cons {a b : Char} {cs : List Char} (h : settled (a :: b :: cs) = true) :
    (isBlank b = true → isBlank a = false ∧ a ≠ ',' ∧ a ≠ '(' ∧ a ≠ ')') ∧ (isBlank a = true → b ≠ ')') ∧
      settled (b :: cs) = true := by
  simp only [settled, Bool.and_eq_true, Bool.not_eq_true', Bool.and_eq_false_iff, Bool.or_eq_false_iff,
    beq_eq_false_iff_ne] at h
  obtain ⟨⟨h1, h2⟩, h3⟩ := h
  refine ⟨fun hb => ?_, fun ha => ?_, h3⟩
  · rcases h1 with h1 | ⟨⟨⟨h4, h5⟩, h6⟩, h7⟩
    · rw [hb] at h1
      cases h1
    · exact ⟨h4, h5, h6, h7⟩
  · rcases h2 with h2 | h2
    · rw [ha] at h2
      cases h2
    · exact h2

theorem dropAfterFrom_settled {p : Char → Bool} (hp : ∀ c, p c = true → c = ',' ∨ c = '(' ∨ c = ')') :
    ∀ {cs : List Char} (c : Char), settled (c :: cs) = true → dropAfterFrom p (p c) cs = cs
  | [], _, _ => rfl
  | b :: cs, a, h => by
    obtain ⟨hblank, -, hrest⟩ := settled_cons h
    have ih := dropAfterFrom_settled hp b hrest
    rw [dropAfterFrom, if_neg, ih]
    rw [Bool.and_eq_true]
    rintro ⟨ha, hb⟩
    obtain ⟨-, h1, h2, h3⟩ := hblank hb
    rcases hp a ha with rfl | rfl | rfl
    · exact h1 rfl
    · exact h2 rfl
    · exact h3 rfl

theorem dropAfter_settled {p : Char → Bool} (hp : ∀ c, p c = true → c = ',' ∨ c = '(' ∨ c = ')') {cs : List Char}
    (h : settled cs = true) : dropAfter p cs = cs := by
  cases cs with
  | nil => rfl
  | cons c cs =>
    rw [dropAfter, dropAfterFrom, if_neg (by simp), dropAfterFrom_settled hp c h]

theorem dropBefore_settled : ∀ {cs : List Char}, settled cs = true → dropBefore (· == ')') cs = cs
  | [], _ => rfl
  | [c], _ => by simp [dropBefore]
  | a :: b :: cs, h => by
    obtain ⟨-, hbefore, hrest⟩ := settled_cons h
    have ih := dropBefore_settled hrest
    rw [dropBefore, ih]
    simp only [List.head?_cons, Option.any_some, Bool.and_eq_true, beq_iff_eq]
    rw [if_neg]
    rintro ⟨ha, hb⟩
    exact hbefore ha hb

theorem collapseRuns_settled : ∀ {cs : List Char}, settled cs = true → collapseRuns cs = cs
  | [], _ => rfl
  | [c], _ => rfl
  | a :: b :: cs, h => by
    obtain ⟨hblank, -, hrest⟩ := settled_cons h
    have ih := collapseRuns_settled hrest
    rw [collapseRuns, ih]
    simp only [Bool.and_eq_true]
    rw [if_neg]
    rintro ⟨ha, hb⟩
    rw [(hblank hb).1] at ha
    cases ha

/-- A string with nothing to squeeze is kept. -/
theorem value_of_settled {d : Char} (hd : Nesting.isQuote d = true) {body : List Char}
    (h : settled (d :: (body ++ [d])) = true) : value (d :: (body ++ [d])) = d :: (body ++ [d]) := by
  have halone := trim_around hd [] body []
  rw [List.nil_append, List.append_nil] at halone
  rw [value_eq, inner, dropAfter_settled (by simp) h, dropAfter_settled (by simp) h, dropBefore_settled h,
    dropAfter_settled (by simp) h, collapseRuns_settled h, halone]
  simp [trimLeft]

end Squeeze

/-! ## Aliases -/

namespace Selector

theorem aliasAt_some {cs : List Char} {found : Found Char} (h : aliasAt cs = some found) :
    ∃ rest, cs = aliasName ++ rest ∧ found = { put := aliasMeaning, more := aliasName.length - 1 } := by
  unfold aliasAt at h
  split at h
  · rename_i hp
    rw [Bool.and_eq_true] at hp
    obtain ⟨rest, rfl⟩ := List.isPrefixOf_iff_prefix.1 hp.1
    exact ⟨rest, rfl, (Option.some.inj h).symm⟩
  · cases h

theorem aliasAt_isSome (c : Char) (cs : List Char) : (aliasAt (c :: cs)).isSome =
    (c == ':' && "hocus".toList.isPrefixOf cs && !(cs.drop 5).head?.any isNameChar) := by
  have hname : aliasName = ':' :: "hocus".toList := by decide
  have hlength : aliasName.length = 6 := by decide
  unfold aliasAt
  rw [hlength, List.drop_succ_cons, hname, List.isPrefixOf_cons_cons, Bool.beq_comm]
  split <;> simp_all

theorem expand_induction {P : List Char → List Char → Prop} (nil : P [] [])
    (meaning : ∀ rest, P rest (expand rest) → P (aliasName ++ rest) (aliasMeaning ++ expand rest))
    (keep : ∀ c cs, aliasAt (c :: cs) = none → P cs (expand cs) → P (c :: cs) (c :: expand cs)) (cs : List Char) :
    P cs (expand cs) := by
  refine replaceAll_induction nil (fun c cs found hrule ih => ?_) keep cs
  obtain ⟨rest, hcs, rfl⟩ := aliasAt_some hrule
  have hcs' : c :: cs = ':' :: ("hocus".toList ++ rest) := hcs
  have hdrop : cs.drop (aliasName.length - 1) = rest := by
    rw [(List.cons.inj hcs').2]
    exact List.drop_left' (by decide)
  rw [hdrop] at ih ⊢
  rw [hcs]
  exact meaning rest ih

theorem head?_expand (cs : List Char) : (expand cs).head? = cs.head? :=
  expand_induction (P := fun cs r => r.head? = cs.head?) rfl (fun _ _ => rfl) (fun _ _ _ _ => rfl) cs

theorem expand_cons {c : Char} (hc : c ≠ ':') (cs : List Char) : expand (c :: cs) = c :: expand cs := by
  have hrule : aliasAt (c :: cs) = none := by
    cases h : aliasAt (c :: cs) with
    | none => rfl
    | some found =>
      obtain ⟨rest, hcs, -⟩ := aliasAt_some h
      exact absurd (List.cons.inj hcs).1 hc
  simp [expand, replaceAll, replaceFrom, hrule]

/-- A word without a colon stands in front before and after. -/
theorem isPrefixOf_expand : ∀ {word : List Char}, ':' ∉ word → ∀ {cs : List Char}, word.isPrefixOf (expand cs) = true →
    word.isPrefixOf cs = true ∧ (expand cs).drop word.length = expand (cs.drop word.length)
  | [], _, _, _ => by simp
  | w :: word, hword, [], h => by
    simp [expand, replaceAll, replaceFrom] at h
  | w :: word, hword, c :: cs, h => by
    rw [List.mem_cons, not_or] at hword
    by_cases hc : c = ':'
    · have hhead := head?_expand (c :: cs)
      obtain ⟨tail, htail⟩ := List.isPrefixOf_iff_prefix.1 h
      rw [← htail, List.cons_append, List.head?_cons, List.head?_cons] at hhead
      exact absurd (hc ▸ Option.some.inj hhead).symm hword.1
    · rw [expand_cons hc, List.isPrefixOf_cons_cons, Bool.and_eq_true] at h
      have ih := isPrefixOf_expand hword.2 h.2
      rw [expand_cons hc, List.isPrefixOf_cons_cons, h.1, ih.1, List.length_cons, List.drop_succ_cons, List.drop_succ_cons]
      exact ⟨rfl, ih.2⟩

/-- No alias is left. -/
theorem aliasAt_expand (cs : List Char) : ∀ u, u <:+ expand cs → aliasAt u = none := by
  refine expand_induction (P := fun _ r => ∀ u, u <:+ r → aliasAt u = none) ?_ ?_ ?_ cs
  · intro u hu
    rw [List.suffix_nil.1 hu]
    rfl
  · -- an alias would have to begin in what stands for one, and nothing there looks like it
    intro rest ih u hu
    have hnone : ∀ v ∈ aliasMeaning.tails, v = [] ∨ (aliasName.isPrefixOf v = false ∧ v.isPrefixOf aliasName = false) := by
      decide
    obtain ⟨front, hfront⟩ := hu
    rcases List.append_eq_append_iff.1 hfront with ⟨v, hv, rfl⟩ | ⟨w, -, hw⟩
    · rcases hnone v ((List.mem_tails _ _).2 ⟨front, hv.symm⟩) with rfl | ⟨h1, h2⟩
      · exact ih _ (by simp)
      · cases halias : aliasAt (v ++ expand rest) with
        | none => rfl
        | some found =>
          obtain ⟨tail, he, -⟩ := aliasAt_some halias
          have hname : aliasName <+: v ++ expand rest := ⟨tail, he.symm⟩
          rcases List.prefix_or_prefix_of_prefix (List.prefix_append v (expand rest)) hname with hp | hp
          · rw [List.isPrefixOf_iff_prefix.2 hp] at h2
            cases h2
          · rw [List.isPrefixOf_iff_prefix.2 hp] at h1
            cases h1
    · exact ih u ⟨w, hw.symm⟩
  · intro c cs hrule ih u hu
    rcases List.suffix_cons_iff.1 hu with rfl | hu
    · rw [← Option.isNone_iff_eq_none, ← Option.isSome_eq_false_iff, aliasAt_isSome] at hrule ⊢
      -- the rest of the alias has no colon, so it was there before
      by_cases hword : "hocus".toList.isPrefixOf (expand cs) = true
      · obtain ⟨hbefore, hdrop⟩ := isPrefixOf_expand (by decide) hword
        rwa [hword, show 5 = "hocus".toList.length by decide, hdrop, head?_expand, ← hbefore]
      · rw [Bool.not_eq_true] at hword
        rw [hword, Bool.and_false, Bool.false_and]
    · exact ih u hu

theorem expand_expand (cs : List Char) : expand (expand cs) = expand cs := replaceAll_of_none (aliasAt_expand cs)

end Selector

/-! ## Strings in a selector -/

/-- The quote that is open behind a text.  Backslashes do not count here. -/
def openQuote (quote : Option Char) (cs : List Char) : Option Char :=
  cs.foldl (fun quote c => Comment.quoteStep quote false c) quote

@[simp] theorem openQuote_append (quote : Option Char) (a b : List Char) :
    openQuote quote (a ++ b) = openQuote (openQuote quote a) b := List.foldl_append

theorem openQuote_of_no_quotes {cs : List Char} (h : ∀ c ∈ cs, Nesting.isQuote c = false) {quote : Option Char}
    (hquote : ∀ d ∈ quote, Nesting.isQuote d = true) : openQuote quote cs = quote := by
  induction cs with
  | nil => rfl
  | cons c cs ih =>
    rw [List.forall_mem_cons] at h
    have hstep : Comment.quoteStep quote false c = quote := by
      cases quote with
      | none => simp [Comment.quoteStep, h.1]
      | some d =>
        have hne : c ≠ d := by
          rintro rfl
          rw [hquote c rfl] at h
          cases h.1
        simp [Comment.quoteStep, hne]
    unfold openQuote at ih ⊢
    rw [List.foldl_cons, hstep, ih h.2]

theorem openQuote_isQuote : ∀ {cs : List Char} {quote : Option Char}, (∀ d ∈ quote, Nesting.isQuote d = true) →
    ∀ d ∈ openQuote quote cs, Nesting.isQuote d = true
  | [], _, h => h
  | c :: cs, quote, h => @openQuote_isQuote cs (Comment.quoteStep quote false c) (Comment.quote_of_quoteStep h)

theorem openQuote_expand (quote : Option Char) (hquote : ∀ d ∈ quote, Nesting.isQuote d = true) (cs : List Char) :
    openQuote quote (Selector.expand cs) = openQuote quote cs := by
  refine Selector.expand_induction (P := fun cs r => ∀ quote : Option Char,
    (∀ d ∈ quote, Nesting.isQuote d = true) → openQuote quote r = openQuote quote cs) ?_ ?_ ?_ cs quote hquote
  · exact fun _ _ => rfl
  · intro rest ih quote hquote
    have hname : ∀ c ∈ Selector.aliasName, Nesting.isQuote c = false := no_quotes_of_any rfl
    have hmeaning : ∀ c ∈ Selector.aliasMeaning, Nesting.isQuote c = false := no_quotes_of_any rfl
    rw [openQuote_append, openQuote_append, openQuote_of_no_quotes hname hquote, openQuote_of_no_quotes hmeaning hquote,
      ih quote hquote]
  · intro c cs _ ih quote hquote
    exact ih _ (Comment.quote_of_quoteStep hquote)

theorem Selector.expand_no_quotes {cs : List Char} (h : ∀ c ∈ cs, Nesting.isQuote c = false) :
    ∀ c ∈ expand cs, Nesting.isQuote c = false := by
  have hmeaning : ∀ c ∈ aliasMeaning, Nesting.isQuote c = false := no_quotes_of_any rfl
  revert h
  refine expand_induction (P := fun cs r => (∀ c ∈ cs, Nesting.isQuote c = false) → ∀ c ∈ r, Nesting.isQuote c = false)
    ?_ ?_ ?_ cs
  · exact fun _ => by simp
  · intro rest ih h
    rw [List.forall_mem_append] at h ⊢
    exact ⟨hmeaning, ih h.2⟩
  · intro c cs _ ih h
    rw [List.forall_mem_cons] at h ⊢
    exact ⟨h.1, ih h.2⟩

theorem openQuote_trimLeft (cs : List Char) : openQuote none (trimLeft cs) = openQuote none cs := by
  induction cs with
  | nil => rfl
  | cons c cs ih =>
    by_cases hc : isBlank c = true
    · have hstep : Comment.quoteStep none false c = none := by simp [Comment.quoteStep, Comment.not_quote_of_blank hc]
      unfold trimLeft openQuote at ih ⊢
      simp [hc, hstep, ih]
    · rw [Bool.not_eq_true] at hc
      rw [trimLeft_cons_of_visible hc]

namespace Nesting

/-- What is open behind a text. -/
def run (n : Nesting) (cs : List Char) : Nesting := cs.foldl (fun n c => (n.step .delimiters false c).1) n

theorem run_append (n : Nesting) (a b : List Char) : n.run (a ++ b) = (n.run a).run b := List.foldl_append

theorem step_quote (n : Nesting) (c : Char) : (n.step .delimiters false c).1.quote = Comment.quoteStep n.quote false c := by
  obtain ⟨quote, round, square⟩ := n
  cases quote with
  | some q => by_cases h : (c == q) = true <;> simp [step, Comment.quoteStep, h]
  | none =>
    by_cases h : isQuote c = true
    · simp [step, Comment.quoteStep, h]
    · simp only [step, Comment.quoteStep, h, ScanMode.delimiters]
      repeat' split
      all_goals simp_all

theorem run_quote : ∀ (cs : List Char) (n : Nesting), (n.run cs).quote = openQuote n.quote cs
  | [], _ => rfl
  | c :: cs, n => by
    have ih := run_quote cs (n.step .delimiters false c).1
    rw [step_quote] at ih
    exact ih

theorem marksFrom_append (b : List Char) : ∀ (a : List Char) (n : Nesting),
    marksFrom .delimiters n false (a ++ b) = marksFrom .delimiters n false a ++ marksFrom .delimiters (n.run a) false b
  | [], _ => rfl
  | c :: a, n => by
    rw [List.cons_append, marksFrom, marksFrom]
    exact congrArg (_ :: ·) (marksFrom_append b a _)

/-- Nothing is at top level while a quote is open. -/
theorem step_inside {n : Nesting} {d : Char} (hn : n.quote = some d) (c : Char) : (n.step .delimiters false c).2 = false := by
  unfold step
  simp only [hn]
  split <;> rfl

theorem marks_inside {d : Char} (hd : isQuote d = true) : ∀ {body : List Char} {n : Nesting}, n.quote = some d →
    (∀ c ∈ body, isQuote c = false) → ∀ c, ∀ m ∈ marksFrom .delimiters n false (body ++ [c]), m = false
  | [], n, hn, _, c => by simp [marksFrom, step_inside hn c]
  | e :: body, n, hn, h, c => by
    rw [List.forall_mem_cons] at h
    have hquote : (n.step .delimiters false e).1.quote = some d := by
      rw [step_quote, hn]
      have hne : e ≠ d := by
        rintro rfl
        rw [hd] at h
        cases h.1
      simp [Comment.quoteStep, hne]
    rw [List.cons_append, marksFrom, List.forall_mem_cons]
    exact ⟨step_inside hn e, marks_inside hd hquote h.2 c⟩

/-- Nothing in a string is at top level, if its first quote does not close another string. -/
theorem marks_string {d : Char} (hd : isQuote d = true) {body : List Char} (hbody : ∀ c ∈ body, isQuote c = false)
    {n : Nesting} (hn : ∀ e ∈ n.quote, isQuote e = true) (hopen : n.quote ≠ some d) :
    ∀ m ∈ marksFrom .delimiters n false (d :: (body ++ [d])), m = false := by
  have hquote := step_quote n d
  rw [marksFrom, List.forall_mem_cons]
  cases hcase : n.quote with
  | none =>
    rw [hcase] at hquote
    refine ⟨by simp [step, hcase, hd], marks_inside hd ?_ hbody d⟩
    rw [hquote]
    simp [Comment.quoteStep, hd]
  | some e =>
    rw [hcase] at hquote hopen
    have hne : d ≠ e := fun h => hopen (by rw [h])
    refine ⟨step_inside hcase d, marks_inside (hn e hcase) ?_ hbody d⟩
    rw [hquote]
    simp [Comment.quoteStep, hne]

end Nesting

/-! ## Cutting -/

theorem cutParts_append_of_no_cut {sep : Char} (back : List (Char × Bool)) : ∀ {front : List (Char × Bool)},
    (∀ m ∈ front, isCut sep m = false) →
      cutParts sep (front ++ back) = (front.map Prod.fst ++ (cutParts sep back).1, (cutParts sep back).2)
  | [], _ => rfl
  | m :: front, h => by
    rw [List.forall_mem_cons] at h
    rw [List.cons_append, cutParts, cutParts_append_of_no_cut back h.2]
    simp [h.1]

/-- The part that begins somewhere in a text ends a part of the whole. -/
theorem exists_part_append {sep : Char} (back : List (Char × Bool)) : ∀ front : List (Char × Bool),
    ∃ a, a ++ (cutParts sep back).1 ∈ (cutParts sep (front ++ back)).1 :: (cutParts sep (front ++ back)).2
  | [] => ⟨[], by simp⟩
  | m :: front => by
    obtain ⟨a, ha⟩ := exists_part_append back front
    rw [List.cons_append, cutParts]
    simp only
    split
    · exact ⟨a, List.mem_cons_of_mem _ ha⟩
    · rcases List.mem_cons.1 ha with ha | ha
      · exact ⟨m.1 :: a, by simp [ha]⟩
      · exact ⟨a, List.mem_cons_of_mem _ ha⟩

theorem mem_dropBlankLast {part : List Char} (hpart : allBlank part = false) : ∀ {parts : List (List Char)},
    part ∈ parts → part ∈ dropBlankLast parts
  | [only], h => by
    rw [List.mem_singleton.1 h] at hpart ⊢
    simp [dropBlankLast, hpart]
  | first :: next :: parts, h => by
    rw [dropBlankLast]
    rcases List.mem_cons.1 h with rfl | h
    · exact List.mem_cons_self
    · exact List.mem_cons_of_mem _ (mem_dropBlankLast hpart h)

/-- **A string is not cut**, if its first quote does not close another string. -/
theorem exists_part_of_string {d : Char} (hd : Nesting.isQuote d = true) {body : List Char}
    (hbody : ∀ c ∈ body, Nesting.isQuote c = false) {a : List Char} (hopen : openQuote none a ≠ some d) (b : List Char) :
    ∃ x y, x ++ d :: (body ++ [d]) ++ y ∈ splitTopLevel ',' (a ++ d :: (body ++ [d]) ++ b) := by
  generalize hq : d :: (body ++ [d]) = q
  have hquote : (Nesting.outside.run a).quote = openQuote none a := Nesting.run_quote a _
  have hmarks : ∀ m ∈ marksFrom .delimiters (Nesting.outside.run a) false q, m = false := by
    rw [← hq]
    refine Nesting.marks_string hd hbody ?_ (by rwa [hquote])
    rw [hquote]
    exact openQuote_isQuote (by simp)
  have hmarked : marked .delimiters (a ++ q ++ b) = marked .delimiters a ++
      (q.zip (marksFrom .delimiters (Nesting.outside.run a) false q) ++
        b.zip (marksFrom .delimiters ((Nesting.outside.run a).run q) false b)) := by
    unfold marked marks
    rw [List.append_assoc, Nesting.marksFrom_append, Nesting.marksFrom_append,
      List.zip_append (marksFrom_length _ _ _ _).symm, List.zip_append (marksFrom_length _ _ _ _).symm]
  have hnone : ∀ m ∈ q.zip (marksFrom .delimiters (Nesting.outside.run a) false q), isCut ',' m = false :=
    fun m hm => by rw [isCut, hmarks m.2 (List.of_mem_zip hm).2, Bool.false_and]
  obtain ⟨x, hx⟩ := @exists_part_append ',' (q.zip (marksFrom .delimiters (Nesting.outside.run a) false q) ++
    b.zip (marksFrom .delimiters ((Nesting.outside.run a).run q) false b)) (marked .delimiters a)
  rw [← hmarked, cutParts_append_of_no_cut _ hnone, List.map_fst_zip (marksFrom_length _ _ _ _).ge] at hx
  simp only [← List.append_assoc] at hx
  have hvisible : ∀ y, allBlank (x ++ q ++ y) = false := by
    intro y
    rw [allBlank_append, allBlank_append, ← hq]
    simp [allBlank, not_blank_of_quote hd]
  rw [splitTopLevel]
  exact ⟨x, _, mem_dropBlankLast (hvisible _) hx⟩

namespace Selector

theorem isInfix_nestPart (part : List Char) : expand (trim part) <:+: nestPart part := by
  unfold nestPart
  simp only
  split
  · exact List.infix_rfl
  · split
    · rename_i hnil
      simp [hnil]
    · exact List.infix_rfl
    · exact (List.suffix_cons _ _).isInfix
    · exact (List.suffix_cons _ _).isInfix
    · exact ((List.suffix_cons _ _).trans (List.suffix_cons _ _)).isInfix

/-- **What becomes of a string in a selector**: its aliases are spelled out, wherever the rule stands and however its
selector is cut and joined. -/
theorem isInfix_normalise {d : Char} (hd : Nesting.isQuote d = true) {body : List Char}
    (hbody : ∀ c ∈ body, Nesting.isQuote c = false) {a : List Char} (hopen : openQuote none a ≠ some d) (b : List Char)
    (nested compact : Bool) :
    expand (d :: (body ++ [d])) <:+: normalise nested compact (a ++ d :: (body ++ [d]) ++ b) := by
  have hexpanded : expand (trim (a ++ d :: (body ++ [d]) ++ b)) =
      expand (trimLeft a) ++ d :: (expand body ++ [d]) ++ expand (trimRight b) := by
    rw [trim_around hd, expand_atQuotes.around hd]
  have hstring := expand_atQuotes.string hd body
  have hinner : ∀ c ∈ expand body, Nesting.isQuote c = false := expand_no_quotes hbody
  have hopen' : openQuote none (expand (trimLeft a)) ≠ some d := by
    rwa [openQuote_expand _ (by simp), openQuote_trimLeft]
  obtain ⟨x, y, hpart⟩ := exists_part_of_string hd hinner hopen' (expand (trimRight b))
  have htrim := trim_around hd x (expand body) y
  unfold normalise
  simp only [hexpanded]
  rw [hstring]
  split
  · have hnest := isInfix_nestPart (x ++ d :: (expand body ++ [d]) ++ y)
    rw [htrim, expand_atQuotes.around hd, expand_expand] at hnest
    exact (List.infix_append _ _ _).trans (hnest.trans (isInfix_intercalate (List.mem_map_of_mem hpart)))
  · split
    · have hmem := List.mem_map_of_mem (f := trim) hpart
      rw [htrim] at hmem
      exact (List.infix_append _ _ _).trans (isInfix_intercalate hmem)
    · exact List.infix_append _ _ _

end Selector

end Offside
