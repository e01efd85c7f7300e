import Offside.Proofs.Markers
import Offside.Proofs.Reading

/-!
# What a statement is read from

The text that each kind of statement is read from, said once as a relation (`Statement.Reads`).  All
that a statement holds stands in its line as it is written there (`Statement.read_texts`).
-/
namespace Offside

theorem trim_isInfix (cs : List Char) : trim cs <:+: cs := by
  obtain ⟨a, b, -, -, he⟩ := exists_append_trim cs
  exact ⟨a, b, he.symm⟩

theorem trimRight_isPrefix (cs : List Char) : trimRight cs <+: cs := by
  obtain ⟨b, -, he⟩ := exists_trimRight_append cs
  exact ⟨b, he.symm⟩

/-- A text cut at the first character of which `p` holds. -/
theorem exists_append_of_findIdx? {α : Type} {p : α → Bool} {as : List α} {k : Nat} (h : as.findIdx? p = some k) :
    ∃ before a behind, as = before ++ a :: behind ∧ before.length = k ∧ p a = true ∧ ∀ b ∈ before, p b = false := by
  obtain ⟨hk, ha, hbefore⟩ := List.findIdx?_eq_some_iff_getElem.1 h
  refine ⟨as.take k, as[k], as.drop (k + 1), by simp, by simp; omega, ha, fun b hb => ?_⟩
  obtain ⟨i, hi, rfl⟩ := List.mem_take_iff_getElem.1 hb
  simpa using hbefore i (by omega)

theorem exists_append_of_findTopLevel? {target : Char} {cs : List Char} {k : Nat} (h : findTopLevel? target cs = some k) :
    ∃ before behind, cs = before ++ target :: behind ∧ before.length = k := by
  obtain ⟨before, m, behind, he, hlen, hm, -⟩ := exists_append_of_findIdx? h
  have hcs := congrArg (List.map Prod.fst) he
  rw [marked_map_fst, List.map_append, List.map_cons] at hcs
  rw [isCut, Bool.and_eq_true, beq_iff_eq] at hm
  exact ⟨_, _, by rw [hcs, hm.2], by simpa using hlen⟩

namespace Statement

/-- **What each kind of statement is read from**, its comment apart. -/
inductive Reads (comment : Option Comment) : List Char → Statement → Prop
  | remark {c : Comment} (h : comment = some c) : Reads comment [] (.leaf (.remark c))
  | define {before behind : List Char} (hcolon : ':' ∉ before) :
      Reads comment ('$' :: (before ++ ':' :: behind)) (.leaf (.define (trim before) (splitConst (trim behind)).1
        (splitConst (trim behind)).2 comment))
  | atRule {rest name params : List Char} (hrest : trim rest = name ++ params)
      (hname : ∀ c ∈ name, isNameChar c = true) : Reads comment ('@' :: rest) (.heading (.atRule name (trim params) comment))
  | declare {before behind : List Char} (hcolon : findTopLevel? ':' (before ++ ':' :: behind) = some before.length) :
      Reads comment (before ++ ':' :: behind) (.leaf (.declare (trim before) (trim behind) comment))
  | rule {main : List Char} : Reads comment main (.heading (.rule main comment))

/-! What a statement was read from, when it was read. -/

section

variable {comment : Option Comment} {s : Statement}

theorem readDefine_ok {cs : List Char} (h : readDefine ('$' :: cs) comment = .ok s) :
    ∃ before behind, cs = before ++ ':' :: behind ∧ ':' ∉ before ∧ trim before ≠ [] ∧
      s = .leaf (.define (trim before) (splitConst (trim behind)).1 (splitConst (trim behind)).2 comment) := by
  unfold readDefine at h
  split at h
  · cases h
  · rename_i colon hcolon
    obtain ⟨before, c, behind, he, hlen, hc, hbefore⟩ := exists_append_of_findIdx? hcolon
    obtain rfl : c = ':' := by simpa using hc
    cases before with
    | nil => cases he
    | cons d before =>
      obtain ⟨rfl, rfl⟩ := List.cons.inj (he.trans (List.cons_append ..))
      have htake : ((('$' :: (before ++ ':' :: behind)).take colon).drop 1) = before := by simp [← hlen]
      have hdrop : ('$' :: (before ++ ':' :: behind)).drop (colon + 1) = behind := by simp [← hlen]
      rw [htake, hdrop] at h
      split at h
      · cases h
      · rename_i hname
        cases h
        exact ⟨before, behind, rfl, fun hm => by simpa using hbefore ':' (List.mem_cons_of_mem _ hm), hname, rfl⟩

theorem readAtRule_ok {cs : List Char} (h : readAtRule ('@' :: cs) comment = .ok s) :
    (trim cs).takeWhile isNameChar ≠ [] ∧ s = .heading (.atRule ((trim cs).takeWhile isNameChar)
      (trim ((trim cs).dropWhile isNameChar)) comment) := by
  unfold readAtRule at h
  simp only [List.drop_succ_cons, List.drop_zero] at h
  split at h
  · cases h
  · rename_i hname
    cases h
    exact ⟨hname, rfl⟩

theorem readPlain_ok {main : List Char} (h : readPlain main comment = .ok s) :
    s = .heading (.rule main comment) ∨
      ∃ before behind, main = before ++ ':' :: behind ∧ findTopLevel? ':' main = some before.length ∧
        trim before ≠ [] ∧ trim behind ≠ [] ∧ s = .leaf (.declare (trim before) (trim behind) comment) := by
  unfold readPlain at h
  split at h
  · cases h
    exact Or.inl rfl
  · rename_i colon hcolon
    obtain ⟨before, behind, rfl, rfl⟩ := exists_append_of_findTopLevel? hcolon
    simp only [List.take_left, show (before ++ ':' :: behind).drop (before.length + 1) = behind by simp] at h
    split at h
    · split at h
      · cases h
      · cases h
      · rename_i hproperty hvalue
        cases h
        exact Or.inr ⟨before, behind, rfl, hcolon, hproperty, hvalue, rfl⟩
    · cases h
      exact Or.inl rfl

theorem readDefine_reads {cs : List Char} (h : readDefine ('$' :: cs) comment = .ok s) : Reads comment ('$' :: cs) s := by
  obtain ⟨before, behind, rfl, hcolon, -, rfl⟩ := readDefine_ok h
  exact .define hcolon

theorem readAtRule_reads {cs : List Char} (h : readAtRule ('@' :: cs) comment = .ok s) : Reads comment ('@' :: cs) s := by
  obtain ⟨-, rfl⟩ := readAtRule_ok h
  exact .atRule List.takeWhile_append_dropWhile.symm fun c hc => List.mem_takeWhile_imp hc

theorem readPlain_reads {main : List Char} (h : readPlain main comment = .ok s) : Reads comment main s := by
  rcases readPlain_ok h with rfl | ⟨before, behind, rfl, hcolon, -, -, rfl⟩
  · exact .rule
  · exact .declare hcolon

end

theorem readMain_ok {main : List Char} {comment : Option Comment} {s : Statement}
    (h : readMain main comment = .ok (some s)) :
    (main = [] ∧ ∃ c, comment = some c ∧ s = .leaf (.remark c)) ∨
      (∃ cs, main = '$' :: cs ∧ readDefine ('$' :: cs) comment = .ok s) ∨
      (∃ cs, main = '@' :: cs ∧ readAtRule ('@' :: cs) comment = .ok s) ∨
      (main ≠ [] ∧ (∀ c ∈ main.head?, c ≠ '$' ∧ c ≠ '@') ∧ readPlain main comment = .ok s) := by
  have hmap : ∀ {x : Except Cause Statement}, x.map some = .ok (some s) → x = .ok s := by
    intro x hx
    cases x <;> simp_all [Except.map]
  unfold readMain at h
  split at h
  · cases comment with
    | none => cases h
    | some c =>
      cases h
      exact Or.inl ⟨rfl, c, rfl, rfl⟩
  · exact Or.inr (Or.inl ⟨_, rfl, hmap h⟩)
  · exact Or.inr (Or.inr (Or.inl ⟨_, rfl, hmap h⟩))
  · rename_i hne hdefine hatRule
    refine Or.inr (Or.inr (Or.inr ⟨hne, fun c hc => ?_, hmap h⟩))
    obtain ⟨cs, rfl⟩ := List.head?_eq_some_iff.1 hc
    exact ⟨fun he => hdefine cs (he ▸ rfl), fun he => hatRule cs (he ▸ rfl)⟩

theorem readMain_reads {main : List Char} {comment : Option Comment} {s : Statement}
    (h : readMain main comment = .ok (some s)) : Reads comment main s := by
  rcases readMain_ok h with ⟨rfl, c, hc, rfl⟩ | ⟨cs, rfl, hread⟩ | ⟨cs, rfl, hread⟩ | ⟨-, -, hread⟩
  · exact .remark hc
  · exact readDefine_reads hread
  · exact readAtRule_reads hread
  · exact readPlain_reads hread

/-! ## The texts of a statement -/

/-- The texts of a statement, those of its comment included. -/
def texts : Statement → List (List Char)
  | .leaf (.define name value _ comment) => [name, value] ++ comment.toList.flatMap fun c => [c.text, c.raw]
  | .leaf (.declare property value comment) => [property, value] ++ comment.toList.flatMap fun c => [c.text, c.raw]
  | .leaf (.remark comment) => [comment.text, comment.raw]
  | .heading (.rule selector comment) => selector :: comment.toList.flatMap fun c => [c.text, c.raw]
  | .heading (.atRule name params comment) => [name, params] ++ comment.toList.flatMap fun c => [c.text, c.raw]

theorem splitConst_isInfix (value : List Char) : (splitConst value).1 <:+: value := by
  unfold splitConst
  split
  · exact (trim_isInfix _).trans (List.take_prefix _ _).isInfix
  · exact List.infix_rfl

theorem Reads.texts_isInfix {main : List Char} {comment : Option Comment} {s : Statement} (h : Reads comment main s) :
    ∀ t ∈ s.texts, t <:+: main ∨ ∃ c ∈ comment, t = c.text ∨ t = c.raw := by
  have hcomment : ∀ t ∈ comment.toList.flatMap (fun c => [c.text, c.raw]), ∃ c ∈ comment, t = c.text ∨ t = c.raw := by
    intro t ht
    obtain ⟨c, hc, ht⟩ := List.mem_flatMap.1 ht
    exact ⟨c, by simpa using hc, by simpa using ht⟩
  have hfront : ∀ a b : List Char, trim a <:+: a ++ b :=
    fun a b => (trim_isInfix a).trans (List.prefix_append a b).isInfix
  have hback : ∀ (a : List Char) (c : Char) (b : List Char), trim b <:+: a ++ c :: b :=
    fun a c b => (trim_isInfix b).trans ⟨a ++ [c], [], by simp⟩
  cases h with
  | remark h =>
    intro t ht
    exact Or.inr ⟨_, h, by simpa [texts] using ht⟩
  | @define before behind _ =>
    simp only [texts, List.cons_append, List.nil_append, List.forall_mem_cons]
    exact ⟨Or.inl ((hfront before _).trans (List.suffix_cons _ _).isInfix),
      Or.inl ((splitConst_isInfix _).trans ((hback before ':' behind).trans (List.suffix_cons _ _).isInfix)),
      fun t ht => Or.inr (hcomment t ht)⟩
  | @atRule rest name params hrest _ =>
    have hbody : name ++ params <:+: '@' :: rest := by
      rw [← hrest]
      exact (trim_isInfix rest).trans (List.suffix_cons _ _).isInfix
    simp only [texts, List.cons_append, List.nil_append, List.forall_mem_cons]
    exact ⟨Or.inl ((List.prefix_append name params).isInfix.trans hbody),
      Or.inl ((trim_isInfix params).trans ((List.suffix_append name params).isInfix.trans hbody)),
      fun t ht => Or.inr (hcomment t ht)⟩
  | @declare before behind _ =>
    simp only [texts, List.cons_append, List.nil_append, List.forall_mem_cons]
    exact ⟨Or.inl (hfront before _), Or.inl (hback before ':' behind), fun t ht => Or.inr (hcomment t ht)⟩
  | rule =>
    simp only [texts, List.forall_mem_cons]
    exact ⟨Or.inl List.infix_rfl, fun t ht => Or.inr (hcomment t ht)⟩

end Statement

theorem Comment.ofTail_isInfix (tail : List Char) : (ofTail tail).text <:+: tail ∧ (ofTail tail).raw <:+: tail := by
  have hdrop : ∀ n (cs : List Char), cs.drop n <:+: cs := fun n cs => (List.drop_suffix n cs).isInfix
  have htake : ∀ n (cs : List Char), cs.take n <:+: cs := fun n cs => (List.take_prefix n cs).isInfix
  unfold ofTail
  split
  · exact ⟨(trim_isInfix _).trans ((hdrop _ _).trans (trim_isInfix _)), trim_isInfix _⟩
  · simp only
    split
    · exact ⟨(trim_isInfix _).trans ((htake _ _).trans (hdrop _ _)), (trim_isInfix _).trans (htake _ _)⟩
    · exact ⟨(trim_isInfix _).trans (hdrop _ _), trim_isInfix _⟩

/-- **A statement holds nothing but what its line says.** -/
theorem Statement.read_texts {compact : Bool} {content : List Char} {s : Statement}
    (h : Statement.read compact content = .ok (some s)) : ∀ t ∈ s.texts, t <:+: content := by
  intro t ht
  cases compact with
  | true =>
    rw [Statement.read_compact] at h
    rcases (readMain_reads h).texts_isInfix t ht with hm | ⟨c, hc, -⟩
    · exact hm.trans (trim_isInfix content)
    · cases hc
  | false =>
    rw [Statement.read_formatted] at h
    rcases (readMain_reads h).texts_isInfix t ht with hm | ⟨c, hc, hm⟩
    · rw [Comment.trim_extract] at hm
      exact hm.trans ((trim_isInfix _).trans (Comment.codeFrom_isPrefix none false content).isInfix)
    · rw [Comment.extract_eq] at hc
      split at hc
      · cases hc
      · cases hc
        have htail := Comment.ofTail_isInfix (Comment.tail content)
        have hsuffix : Comment.tail content <:+: content := (List.drop_suffix _ _).isInfix
        rcases hm with rfl | rfl
        · exact htail.1.trans hsuffix
        · exact htail.2.trans hsuffix

/-- The line that a statement of the tree is read from. -/
theorem exists_logical {compact : Bool} {lines : List Line} {r : Reader} (h : readLines compact lines = (r, .ok ()))
    {s : Statement} (hs : s ∈ r.sheet.preorder.map Prod.snd) :
    ∃ l ∈ r.logical, Statement.read compact l.text = .ok (some s) := by
  obtain ⟨p, hp, rfl⟩ := List.mem_map.1 hs
  obtain ⟨i, hi, rfl⟩ := List.mem_iff_getElem.1 hp
  obtain ⟨hforall, hlength, -⟩ := readLines_preorder h
  exact ⟨r.logical[i], List.getElem_mem _, (hforall.get (by omega) hi).reads⟩

end Offside
