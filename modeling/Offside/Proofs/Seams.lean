import Offside.Proofs.Openers

/-!
# Constants and the scan

A text is made of characters and references (`chunks`).  Replacing the references can bring a slash and a star together, or
put a quote where one is open.  Where it does neither (`seamless`, `unquoted`), the new text is scanned as the old one is
(`Scan.run_substitute`).
-/
namespace Offside

/-! ## References in a text -/

/-- A text is made of characters and references. -/
inductive Chunk
  | char (c : Char)
  | reference (name : List Char)
deriving DecidableEq, Repr

namespace Chunk

def text (get? : List Char → Option (List Char)) : Chunk → List Char
  | char c => [c]
  | reference name => resolve get? name

/-- The text of the chunk as it was written. -/
def written : Chunk → List Char
  | char c => [c]
  | reference name => '$' :: name

/-- The constant that a chunk stands for. -/
def literal? (get? : List Char → Option (List Char)) : Chunk → Option (List Char)
  | char _ => none
  | reference name => get? name

end Chunk

def chunksFrom : (skip : Nat) → List Char → List Chunk
  | _, [] => []
  | skip + 1, _ :: cs => chunksFrom skip cs
  | 0, c :: cs =>
    if c = '$' ∧ cs.takeWhile isNameChar ≠ [] then
      .reference (cs.takeWhile isNameChar) :: chunksFrom (cs.takeWhile isNameChar).length cs
    else .char c :: chunksFrom 0 cs

def chunks (cs : List Char) : List Chunk := chunksFrom 0 cs

theorem referenceAt_cons (get? : List Char → Option (List Char)) (c : Char) (cs : List Char) :
    referenceAt get? (c :: cs) = if c = '$' ∧ cs.takeWhile isNameChar ≠ [] then
      some { put := resolve get? (cs.takeWhile isNameChar), more := (cs.takeWhile isNameChar).length } else none := by
  by_cases hc : c = '$'
  · subst hc
    rw [referenceAt]
    cases cs.takeWhile isNameChar <;> simp
  · rw [if_neg fun h => hc h.1]
    unfold referenceAt
    split
    · rename_i he
      exact absurd (List.cons.inj he).1 hc
    · rfl

theorem replaceFrom_referenceAt (get? : List Char → Option (List Char)) : ∀ (skip : Nat) (cs : List Char),
    replaceFrom (referenceAt get?) skip cs = (chunksFrom skip cs).flatMap (Chunk.text get?)
  | _, [] => by simp [replaceFrom, chunksFrom]
  | skip + 1, _ :: cs => replaceFrom_referenceAt get? skip cs
  | 0, c :: cs => by
    rw [replaceFrom, referenceAt_cons, chunksFrom]
    by_cases h : c = '$' ∧ cs.takeWhile isNameChar ≠ []
    · simp only [if_pos h, List.flatMap_cons, replaceFrom_referenceAt get? _ cs]
      rfl
    · simp only [if_neg h, List.flatMap_cons, replaceFrom_referenceAt get? _ cs]
      rfl

/-- **Only the references of a text change.** -/
theorem substitute_eq (get? : List Char → Option (List Char)) (cs : List Char) :
    substitute get? cs = (chunks cs).flatMap (Chunk.text get?) :=
  replaceFrom_referenceAt get? 0 cs

theorem chunksFrom_eq_drop : ∀ (k : Nat) (cs : List Char), chunksFrom k cs = chunks (cs.drop k)
  | 0, cs => rfl
  | k + 1, [] => rfl
  | k + 1, c :: cs => by rw [chunksFrom, chunksFrom_eq_drop k cs, List.drop_succ_cons]

theorem drop_takeWhile (cs : List Char) : cs.drop (cs.takeWhile isNameChar).length = cs.dropWhile isNameChar := by
  have hdrop := @List.drop_left Char (cs.takeWhile isNameChar) (cs.dropWhile isNameChar)
  rwa [List.takeWhile_append_dropWhile] at hdrop

theorem chunks_char {c : Char} (hc : c ≠ '$') (cs : List Char) : chunks (c :: cs) = .char c :: chunks cs := by
  rw [chunks, chunksFrom, if_neg fun h => hc h.1]
  rfl

theorem chunks_reference {cs : List Char} (hne : cs.takeWhile isNameChar ≠ []) :
    chunks ('$' :: cs) = .reference (cs.takeWhile isNameChar) :: chunks (cs.dropWhile isNameChar) := by
  rw [chunks, chunksFrom, if_pos ⟨rfl, hne⟩, chunksFrom_eq_drop, drop_takeWhile]

theorem flatMap_written : ∀ (skip : Nat) (cs : List Char), (chunksFrom skip cs).flatMap Chunk.written = cs.drop skip
  | skip, [] => by simp [chunksFrom]
  | skip + 1, _ :: cs => flatMap_written skip cs
  | 0, c :: cs => by
    rw [chunksFrom]
    split
    · rename_i hc
      rw [List.flatMap_cons, flatMap_written, drop_takeWhile, hc.1, Chunk.written, List.cons_append,
        List.takeWhile_append_dropWhile]
      rfl
    · rw [List.flatMap_cons, flatMap_written]
      rfl

/-- **Cutting a text into chunks loses nothing.** -/
theorem written_chunks (cs : List Char) : (chunks cs).flatMap Chunk.written = cs := flatMap_written 0 cs

theorem nameChar_of_mem_chunksFrom {name : List Char} : ∀ (skip : Nat) (cs : List Char),
    .reference name ∈ chunksFrom skip cs → ∀ c ∈ name, isNameChar c = true
  | _, [], h => by simp [chunksFrom] at h
  | skip + 1, _ :: cs, h => nameChar_of_mem_chunksFrom skip cs h
  | 0, _ :: cs, h => by
    rw [chunksFrom] at h
    split at h
    · rcases List.mem_cons.1 h with he | h
      · cases he
        exact fun c hc => List.mem_takeWhile_imp hc
      · exact nameChar_of_mem_chunksFrom _ cs h
    · rcases List.mem_cons.1 h with he | h
      · cases he
      · exact nameChar_of_mem_chunksFrom 0 cs h

/-! ## Seams -/

/-- Every item, with what is before it and what is behind it. -/
def cuts {α : Type} : List α → List (List α × α × List α)
  | [] => []
  | x :: xs => ([], x, xs) :: (cuts xs).map fun cut => (x :: cut.1, cut.2)

theorem mem_cuts {α : Type} {x : α} : ∀ {xs before behind : List α},
    (before, x, behind) ∈ cuts xs ↔ xs = before ++ x :: behind
  | [], before, behind => by simp [cuts]
  | y :: xs, before, behind => by
    rw [cuts, List.mem_cons, List.mem_map]
    constructor
    · rintro (h | ⟨⟨front, rest⟩, hmem, h⟩)
      · cases h
        rfl
      · cases h
        rw [mem_cuts.1 hmem]
        rfl
    · intro h
      cases before with
      | nil =>
        cases h
        exact Or.inl rfl
      | cons z before =>
        cases h
        exact Or.inr ⟨(before, x, behind), mem_cuts.2 rfl, rfl⟩

/-- A slash at the end of one text meets a star at the start of the other. -/
def opens (front back : List Char) : Bool := front.getLast? == some '/' && back.head? == some '*'

/-- No constant that is put into the text brings a slash and a star together, at its start, at its end or, if it is
empty, across it. -/
def seamless (get? : List Char → Option (List Char)) (text : List Char) : Bool :=
  (cuts (chunks text)).all fun cut =>
    let before := cut.1.flatMap (Chunk.text get?)
    let behind := cut.2.2.flatMap (Chunk.text get?)
    (cut.2.1.literal? get?).all fun value => !opens before (value ++ behind) && !opens (before ++ value) behind

/-- No constant puts a quote where one is open; `quote` is the one that is open in front. -/
def unquoted (get? : List Char → Option (List Char)) (quote : Option Char) (text : List Char) : Bool :=
  (cuts (chunks text)).all fun cut =>
    openQuote quote (cut.1.flatMap Chunk.written) == none ||
      (cut.2.1.literal? get?).all fun value => value.all fun c => !Nesting.isQuote c

-- an empty constant behind a slash, and two constants side by side
example :
    let get? := fun name => [("e".toList, []), ("a".toList, "1/".toList), ("b".toList, "2".toList)].lookup name
    seamless get? "2/$e x".toList = true ∧ seamless get? "$a$b".toList = true ∧ seamless get? "2/$e*".toList = false := by
  decide

theorem opener_of_opens {front back : List Char} (h : opens front back = true) : Comment.opener <:+: front ++ back := by
  simp only [opens, Bool.and_eq_true, beq_iff_eq] at h
  obtain ⟨front, rfl⟩ := List.getLast?_eq_some_iff.1 h.1
  obtain ⟨back, rfl⟩ := List.head?_eq_some_iff.1 h.2
  exact ⟨front, back, by simp [Comment.opener]⟩

/-- **Nothing less would do**: a constant that meets what is around it badly makes an opener. -/
theorem opener_of_not_seamless {get? : List Char → Option (List Char)} {text : List Char}
    (h : seamless get? text = false) : Comment.opener <:+: substitute get? text := by
  obtain ⟨⟨before, chunk, behind⟩, hcut, hbad⟩ := List.all_eq_false.1 h
  cases chunk with
  | char c => exact absurd rfl hbad
  | reference name =>
    cases hvalue : get? name with
    | none => simp [Chunk.literal?, hvalue] at hbad
    | some value =>
      have htext : substitute get? text =
          before.flatMap (Chunk.text get?) ++ (value ++ behind.flatMap (Chunk.text get?)) := by
        rw [substitute_eq, mem_cuts.1 hcut, List.flatMap_append, List.flatMap_cons, Chunk.text, resolve, hvalue,
          Option.getD_some]
      simp only [Chunk.literal?, hvalue, Option.all_some, Bool.and_eq_true, Bool.not_eq_true', not_and_or,
        Bool.not_eq_false] at hbad
      rcases hbad with hfront | hback
      · exact htext ▸ opener_of_opens hfront
      · rw [htext, ← List.append_assoc]
        exact opener_of_opens hback

namespace Scan

variable {quotes : Bool}

/-- All constants fit where they are put, if the scan is in state `s` in front of the chunks. -/
structure Meets (quotes : Bool) (get? : List Char → Option (List Char)) (s : Scan) (parts : List Chunk) : Prop where
  calm : s.calm = s
  names : ∀ name, .reference name ∈ parts → ∀ c ∈ name, isNameChar c = true
  seams : ∀ before name behind value, parts = before ++ .reference name :: behind → get? name = some value →
    opens (before.flatMap (Chunk.text get?)) (value ++ behind.flatMap (Chunk.text get?)) = false ∧
      opens (before.flatMap (Chunk.text get?) ++ value) (behind.flatMap (Chunk.text get?)) = false
  inside : ∀ before name behind value t, parts = before ++ .reference name :: behind → get? name = some value →
    run quotes s (before.flatMap Chunk.written) = some t → t.quote? ≠ none → ∀ c ∈ value, Nesting.isQuote c = false

theorem run_of_no_quotes {s : Scan} (hs : s.quote? ≠ none) : ∀ {cs : List Char}, (∀ c ∈ cs, Nesting.isQuote c = false) →
    run quotes s cs = some s
  | [], _ => rfl
  | c :: cs, h => by
    rw [List.forall_mem_cons] at h
    have hstep : s.step quotes c = some s := by
      have hne : c ≠ '\'' ∧ c ≠ '"' := by simpa [Nesting.isQuote] using h.1
      cases s with
      | outside => exact absurd rfl hs
      | slash => exact absurd rfl hs
      | single => simp [step, hne]
      | double => simp [step, hne]
    rw [run, hstep]
    exact run_of_no_quotes hs h.2

theorem run_slash {cs : List Char} (hne : cs ≠ []) (hstar : cs.head? ≠ some '*') :
    run quotes slash cs = run quotes outside cs := by
  cases cs with
  | nil => exact absurd rfl hne
  | cons c cs =>
    rw [run, run, step_of_ne_slash (fun hc => hstar (by rw [hc]; rfl))]
    rfl

theorem quiet_resolve {name : List Char} (hname : ∀ c ∈ name, isNameChar c = true) :
    ∀ c ∈ "var(--".toList ++ name ++ [')'], quiet c = true := by
  have hfront : ∀ c ∈ "var(--".toList, quiet c = true := List.all_eq_true.1 rfl
  simp only [List.forall_mem_append, List.forall_mem_singleton]
  exact ⟨⟨hfront, fun c hc => quiet_of_nameChar (hname c hc)⟩, by decide⟩

theorem not_star_of_opens {front back : List Char} (h : opens front back = false) (hlast : front.getLast? = some '/') :
    back.head? ≠ some '*' := by
  intro hhead
  simp [opens, hlast, hhead] at h

/-- What the scan has just read, if it stands at a slash. -/
theorem Meets.getLast?_of_slash {get? : List Char → Option (List Char)} {s : Scan} {parts : List Chunk}
    (h : Meets quotes get? s parts) {cs : List Char} (hrun : run quotes s cs = some slash) : cs.getLast? = some '/' := by
  rcases Scan.getLast?_of_slash hrun with ⟨-, rfl⟩ | hlast
  · cases h.calm
  · exact hlast

/-- The scan of the new text goes on from `u` where that of the old one goes on from `s`: it may stand at a slash that a
constant has ended with, or at one that an empty constant has parted from what followed, and then no star comes next. -/
def Follows (u s : Scan) (back : List Char) : Prop := u = s ∨ u = slash ∧ s = outside ∧ back.head? ≠ some '*'

/-- A constant is scanned from outside quotes to outside quotes. -/
theorem Meets.run_value {get? : List Char → Option (List Char)} {s u : Scan} {before behind : List Chunk}
    {name value : List Char} (h : Meets quotes get? s (before ++ .reference name :: behind)) (hget : get? name = some value)
    (hsealed : Sealed quotes value) (hu : run quotes s (before.flatMap (Chunk.text get?)) = some u)
    (hquote : u.quote? = none) :
    ∃ w, run quotes u value = some w ∧ Follows w outside (behind.flatMap (Chunk.text get?)) := by
  obtain ⟨hfront, hback⟩ := h.seams before name behind value rfl hget
  by_cases hempty : value = []
  · subst hempty
    refine ⟨u, rfl, ?_⟩
    by_cases hslash : u = slash
    · subst hslash
      exact Or.inr ⟨rfl, rfl, not_star_of_opens hfront (h.getLast?_of_slash hu)⟩
    · exact Or.inl (eq_outside hquote hslash)
  · obtain ⟨w, hw, hcalm⟩ := Option.map_eq_some_iff.1 hsealed
    have hvalue : run quotes u value = some w := by
      by_cases hslash : u = slash
      · subst hslash
        have hstar := not_star_of_opens hfront (h.getLast?_of_slash hu)
        rw [List.head?_append_of_ne_nil _ hempty] at hstar
        rw [run_slash hempty hstar, hw]
      · rw [eq_outside hquote hslash, hw]
    refine ⟨w, hvalue, ?_⟩
    cases w with
    | outside => exact Or.inl rfl
    | slash =>
      have hlast : (before.flatMap (Chunk.text get?) ++ value).getLast? = some '/' := by
        apply h.getLast?_of_slash
        rw [run_append, hu]
        exact hvalue
      exact Or.inr ⟨rfl, rfl, not_star_of_opens hback hlast⟩
    | single => cases hcalm
    | double => cases hcalm

/-- **References can be replaced under the scan**, if all constants fit. -/
theorem run_chunks {get? : List Char → Option (List Char)}
    (hget : ∀ name value, get? name = some value → (∀ c ∈ name, isNameChar c = true) → Sealed quotes value) (start : Scan) :
    ∀ (behind before : List Chunk) {s u t : Scan}, Meets quotes get? start (before ++ behind) →
      run quotes start (before.flatMap Chunk.written) = some s →
      run quotes start (before.flatMap (Chunk.text get?)) = some u →
      Follows u s (behind.flatMap (Chunk.text get?)) → run quotes s (behind.flatMap Chunk.written) = some t →
        ∃ e, run quotes u (behind.flatMap (Chunk.text get?)) = some e ∧ e.calm = t.calm
  | [], _, s, u, t, _, _, _, hfollows, hrun => by
    obtain rfl := Option.some.inj hrun
    rcases hfollows with rfl | ⟨rfl, rfl, -⟩
    · exact ⟨u, rfl, rfl⟩
    · exact ⟨slash, rfl, rfl⟩
  | chunk :: behind, before, s, u, t, hmeets, hs, hu, hfollows, hrun => by
    rw [List.flatMap_cons, run_append] at hrun ⊢
    obtain ⟨s', hs', hrest⟩ := Option.bind_eq_some_iff.1 hrun
    -- once the chunk is scanned in both texts, the induction goes on behind it
    have hgo : ∀ u', run quotes u (chunk.text get?) = some u' → Follows u' s' (behind.flatMap (Chunk.text get?)) →
        ∃ e, ((run quotes u (chunk.text get?)).bind fun v => run quotes v (behind.flatMap (Chunk.text get?))) = some e ∧
          e.calm = t.calm := by
      intro u' hu' hnext
      rw [hu', Option.bind_some]
      refine run_chunks hget start behind (before ++ [chunk]) ?_ ?_ ?_ hnext hrest
      · rwa [List.append_assoc, List.singleton_append]
      · rw [List.flatMap_append, run_append, hs]
        simpa using hs'
      · rw [List.flatMap_append, run_append, hu]
        simpa using hu'
    cases chunk with
    | char c =>
      refine hgo s' ?_ (Or.inl rfl)
      rcases hfollows with rfl | ⟨rfl, rfl, hstar⟩
      · exact hs'
      · have hc : c ≠ '*' := fun hc => hstar (by rw [hc]; rfl)
        rw [← hs', Chunk.text, Chunk.written, run, run, step_of_ne_slash hc]
        rfl
    | reference name =>
      have hname := hmeets.names name (by simp)
      have hcalm : u.calm = s.calm := by
        rcases hfollows with rfl | ⟨rfl, rfl, -⟩
        · rfl
        · rfl
      -- the reference itself is nothing to the scan
      have hs'calm : s' = s.calm := by
        rw [Chunk.written, run_cons_quiet (by decide), run_quiet (fun c hc => quiet_of_nameChar (hname c hc)), calm_calm,
          ite_self] at hs'
        exact (Option.some.inj hs').symm
      rw [hs'calm] at hgo
      cases hvalue : get? name with
      | none =>
        refine hgo s.calm ?_ (Or.inl rfl)
        rw [Chunk.text, resolve, hvalue, Option.getD_none, run_quiet (quiet_resolve hname), if_neg (by simp), hcalm]
      | some value =>
        have htext : Chunk.text get? (.reference name) = value := by rw [Chunk.text, resolve, hvalue, Option.getD_some]
        by_cases hquote : u.quote? = none
        · have hout : s.calm = outside := by rw [← hcalm, calm_eq_outside.2 hquote]
          obtain ⟨w, hw, hnext⟩ := hmeets.run_value hvalue (hget name value hvalue hname) hu hquote
          rw [hout] at hgo
          exact hgo w (htext ▸ hw) hnext
        · obtain rfl : u = s := by
            rcases hfollows with rfl | ⟨rfl, -⟩
            · rfl
            · exact absurd rfl hquote
          have hinside := hmeets.inside before name behind value u rfl hvalue hs hquote
          refine hgo u ?_ (Or.inl (calm_of_quote hquote).symm)
          rw [htext, run_of_no_quotes hquote hinside]

theorem run_substitute {get? : List Char → Option (List Char)}
    (hget : ∀ name value, get? name = some value → (∀ c ∈ name, isNameChar c = true) → Sealed quotes value)
    {text : List Char} {s t : Scan} (hmeets : Meets quotes get? s (chunks text)) (hrun : run quotes s text = some t) :
    ∃ e, run quotes s (substitute get? text) = some e ∧ e.calm = t.calm := by
  rw [substitute_eq]
  refine run_chunks hget s (chunks text) [] hmeets rfl rfl (Or.inl rfl) ?_
  rwa [written_chunks]

theorem meets_of_seamless {get? : List Char → Option (List Char)} {s : Scan} {text : List Char} (hs : s.calm = s)
    (hnone : quotes = false → s.quote? = none) (hseam : seamless get? text = true)
    (hquoted : quotes = true → unquoted get? s.quote? text = true) : Meets quotes get? s (chunks text) where
  calm := hs
  names name hmem := nameChar_of_mem_chunksFrom 0 text hmem
  seams before name behind value hparts hget := by
    have hcut := List.all_eq_true.1 hseam _ (mem_cuts.2 hparts)
    simpa [Chunk.literal?, hget] using hcut
  inside before name behind value t hparts hget hrun hopen c hc := by
    obtain ⟨hopens, hcloses⟩ := quote?_run hrun
    cases quotes with
    | false => exact absurd (hcloses rfl (hnone rfl)) hopen
    | true =>
      rw [hopens rfl] at hopen
      have hcut := List.all_eq_true.1 (hquoted rfl) _ (mem_cuts.2 hparts)
      simp only [Chunk.literal?, hget, Option.all_some, Bool.or_eq_true, beq_iff_eq, hopen, false_or, List.all_eq_true,
        Bool.not_eq_true'] at hcut
      exact hcut c hc

end Scan

end Offside
