import Offside.Proofs.Canonical
import Offside.Proofs.Openers

/-!
# Cutting at top level

A character at top level is read with nothing open and leaves nothing open, so what follows it is
scanned as if it stood alone (`topLevelAt_drop`).  A list of parts can be cut out of the text they
make if no part has a cut of its own and each but the last closes what it opens (`Apart`), and the
parts of every text are of that kind.
-/
namespace Offside

/-! ## Nothing is open at top level -/

namespace Nesting

/-- Brackets are open only if the scan takes notice of them. -/
def Fits (mode : ScanMode) (n : Nesting) : Prop := mode.brackets = false → n.round = 0 ∧ n.square = 0

theorem Fits.step {mode : ScanMode} {n : Nesting} (h : Fits mode n) (escaped : Bool) (c : Char) :
    Fits mode (n.step mode escaped c).1 := by
  intro hm
  unfold Nesting.step
  split
  · split
    · exact h hm
    · exact h hm
  · split
    · exact h hm
    · rw [hm]
      exact h hm

/-- **Nothing is open where a character is at top level**, and nothing behind it. -/
theorem step_top {mode : ScanMode} {n : Nesting} (hn : Fits mode n) {escaped : Bool} {c : Char}
    (h : (n.step mode escaped c).2 = true) : n = outside ∧ (n.step mode escaped c).1 = outside := by
  obtain ⟨quote, round, square⟩ := n
  cases quote with
  | some q =>
    simp only [step] at h
    split at h
    · cases h
    · cases h
  | none =>
    simp only [step] at h ⊢
    split at h
    · cases h
    · rename_i hquote
      rw [if_neg hquote]
      split at h
      · -- brackets do not count, so there are none
        rename_i hmode
        obtain ⟨rfl, rfl⟩ := hn (by simpa using hmode)
        simp [hmode, outside]
      · rename_i hmode
        rw [if_neg hmode]
        repeat' split at h
        all_goals simp_all [outside]

end Nesting

theorem marksFrom_drop {mode : ScanMode} : ∀ {cs : List Char} {n : Nesting} {escaped : Bool} {i : Nat}, n.Fits mode →
    (marksFrom mode n escaped cs)[i]? = some true → (mode.escapes = true → cs[i]? ≠ some '\\') →
      (marksFrom mode n escaped cs).drop (i + 1) = marks mode (cs.drop (i + 1))
  | [], _, _, _, _, h, _ => by cases h
  | c :: cs, n, escaped, 0, hn, h, hslash => by
    have htop : (n.step mode escaped c).2 = true := by simpa [marksFrom] using h
    -- the rest begins unescaped, as a text of its own does
    have hfree : (mode.escapes && c == '\\') = false := by
      cases hm : mode.escapes with
      | false => rfl
      | true => simpa using hslash hm
    simp only [marksFrom, hfree, (Nesting.step_top hn htop).2, List.drop_succ_cons, List.drop_zero, marks]
  | c :: cs, n, escaped, i + 1, hn, h, hslash => by
    rw [marksFrom] at h ⊢
    exact marksFrom_drop (hn.step escaped c) h hslash

theorem positionsFrom_add (j : Nat) : ∀ (ms : List Bool) (k : Nat),
    positionsFrom (k + j) ms = (positionsFrom k ms).map (· + j)
  | [], _ => rfl
  | true :: ms, k => by
    rw [positionsFrom, positionsFrom, List.map_cons, ← positionsFrom_add j ms (k + 1), Nat.add_right_comm]
  | false :: ms, k => by
    rw [positionsFrom, positionsFrom, ← positionsFrom_add j ms (k + 1), Nat.add_right_comm]

theorem filter_positionsFrom : ∀ (ms : List Bool) (k i : Nat),
    (positionsFrom k ms).filter (k + i < ·) = positionsFrom (k + i + 1) (ms.drop (i + 1))
  | [], _, _ => rfl
  | m :: ms, k, 0 => by
    have hlater : (positionsFrom (k + 1) ms).filter (k < ·) = positionsFrom (k + 1) ms := by
      refine List.filter_eq_self.2 fun i hi => ?_
      obtain ⟨j, rfl, -⟩ := mem_positionsFrom.1 hi
      simp only [decide_eq_true_eq]
      omega
    cases m <;> simp [positionsFrom, hlater]
  | m :: ms, k, i + 1 => by
    have ih := filter_positionsFrom ms (k + 1) i
    rw [Nat.add_right_comm k 1 i] at ih
    have hself : ¬k + i + 1 < k := by omega
    cases m <;> simp [positionsFrom, ← Nat.add_assoc, ih, hself]

/-- **What follows a character at top level is scanned as if it stood alone.**  Only where a backslash counts does it
matter that it was there. -/
theorem topLevelAt_drop {mode : ScanMode} {cs : List Char} {i : Nat} (hi : i ∈ topLevelAt mode cs)
    (hslash : mode.escapes = true → cs[i]? ≠ some '\\') :
    (topLevelAt mode cs).filter (i < ·) = (topLevelAt mode (cs.drop (i + 1))).map (· + (i + 1)) := by
  obtain ⟨j, rfl, hj⟩ := mem_positionsFrom.1 hi
  have hdrop := marksFrom_drop (fun _ => ⟨rfl, rfl⟩) hj (by simpa using hslash)
  have hfilter := filter_positionsFrom (marks mode cs) 0 j
  rw [Nat.zero_add] at hfilter ⊢
  rw [topLevelAt, topLevelAt, hfilter, ← hdrop, ← positionsFrom_add, Nat.zero_add]
  rfl

/-! ## Parts -/

/-- All parts of a text, also a last one that is blank. -/
def pieces (sep : Char) (cs : List Char) : List (List Char) :=
  (cutParts sep (marked .delimiters cs)).1 :: (cutParts sep (marked .delimiters cs)).2

theorem splitTopLevel_eq (sep : Char) (cs : List Char) : splitTopLevel sep cs = dropBlankLast (pieces sep cs) := rfl

theorem intercalate_pieces (sep : Char) (cs : List Char) : [sep].intercalate (pieces sep cs) = cs := by
  rw [pieces, intercalate_cutParts, marked_map_fst]

/-- A text without a top-level separator. -/
def Uncut (sep : Char) (cs : List Char) : Prop := ∀ m ∈ marked .delimiters cs, isCut sep m = false

theorem uncut_iff {sep : Char} {cs : List Char} : Uncut sep cs ↔ findTopLevel? sep cs = none :=
  List.findIdx?_eq_none_iff.symm

/-- A separator that is itself at top level where nothing is open. -/
def Cuts (sep : Char) : Prop := (Nesting.outside.step .delimiters false sep).2 = true

theorem pieces_of_uncut {sep : Char} {cs : List Char} (h : Uncut sep cs) : pieces sep cs = [cs] := by
  have hcut := cutParts_append_of_no_cut [] h
  rw [List.append_nil, marked_map_fst] at hcut
  rw [pieces, hcut]
  simp [cutParts]

theorem marked_append_cons {sep : Char} (hsep : Cuts sep) {a : List Char} (ha : Nesting.outside.run a = Nesting.outside)
    (b : List Char) :
    marked .delimiters (a ++ sep :: b) = marked .delimiters a ++ (sep, true) :: marked .delimiters b := by
  have hout := (Nesting.step_top (n := .outside) (fun _ => ⟨rfl, rfl⟩) hsep).2
  rw [marked_append, ha, marksFrom, List.zip_cons_cons, hsep, hout]
  rfl

/-- **The first part is peeled off.** -/
theorem pieces_append_cons {sep : Char} (hsep : Cuts sep) {a : List Char} (ha : Uncut sep a)
    (hrun : Nesting.outside.run a = Nesting.outside) (b : List Char) : pieces sep (a ++ sep :: b) = a :: pieces sep b := by
  rw [pieces, marked_append_cons hsep hrun, cutParts_append_of_no_cut _ ha, marked_map_fst, cutParts]
  simp [isCut, pieces]

theorem exists_cut {sep : Char} {cs : List Char} (h : ¬Uncut sep cs) :
    ∃ a b, cs = a ++ sep :: b ∧ Cuts sep ∧ Uncut sep a ∧ Nesting.outside.run a = Nesting.outside := by
  rw [uncut_iff] at h
  obtain ⟨i, hi⟩ := Option.ne_none_iff_exists'.1 h
  obtain ⟨a, b, rfl, rfl⟩ := exists_append_of_findTopLevel? hi
  obtain ⟨ha, htop⟩ := (findTopLevel?_append_cons a b).1 hi
  have hrun := (Nesting.step_top (fun hm => by cases hm) htop).1
  rw [hrun] at htop
  exact ⟨a, b, rfl, htop, ha, hrun⟩

/-- **One part after the other.** -/
theorem pieces_induction {sep : Char} {P : List Char → List (List Char) → Prop} (uncut : ∀ cs, Uncut sep cs → P cs [cs])
    (cut : ∀ a b, Cuts sep → Uncut sep a → Nesting.outside.run a = Nesting.outside → P b (pieces sep b) →
      P (a ++ sep :: b) (a :: pieces sep b)) (cs : List Char) : P cs (pieces sep cs) := by
  -- on the length: what is behind the first cut is no tail by one constructor
  induction hn : cs.length using Nat.strong_induction_on generalizing cs with
  | _ n ih =>
    subst hn
    by_cases h : Uncut sep cs
    · rw [pieces_of_uncut h]
      exact uncut cs h
    · obtain ⟨a, b, rfl, hsep, ha, hrun⟩ := exists_cut h
      rw [pieces_append_cons hsep ha hrun]
      exact cut a b hsep ha hrun (ih _ (by simp; omega) b rfl)

/-- Parts that stay apart when they are put together: none has a cut of its own, and each but the last closes what it
opens. -/
structure Apart (sep : Char) (parts : List (List Char)) : Prop where
  uncut : ∀ part ∈ parts, Uncut sep part
  closed : ∀ part ∈ parts.dropLast, Nesting.outside.run part = Nesting.outside

theorem Apart.of_isPrefix {sep : Char} {parts parts' : List (List Char)} (h : Apart sep parts') (hp : parts <+: parts') :
    Apart sep parts where
  uncut part hm := h.uncut part (hp.subset hm)
  closed part hm := by
    refine h.closed part ?_
    obtain ⟨more, rfl⟩ := hp
    rcases List.eq_nil_or_concat more with rfl | ⟨more, last, rfl⟩
    · simpa using hm
    · rw [List.concat_eq_append, ← List.append_assoc, List.dropLast_concat]
      exact List.mem_append_left _ (List.dropLast_subset _ hm)

theorem Apart.map {sep : Char} {f : List Char → List Char} (huncut : ∀ part, Uncut sep part → Uncut sep (f part))
    (hrun : ∀ part, Nesting.outside.run (f part) = Nesting.outside.run part) {parts : List (List Char)}
    (h : Apart sep parts) : Apart sep (parts.map f) where
  uncut := by
    rw [List.forall_mem_map]
    exact fun part hp => huncut part (h.uncut part hp)
  closed := by
    rw [← List.map_dropLast, List.forall_mem_map]
    exact fun part hp => (hrun part).trans (h.closed part hp)

theorem pieces_ne_nil (sep : Char) (cs : List Char) : pieces sep cs ≠ [] := List.cons_ne_nil _ _

theorem apart_pieces (sep : Char) (cs : List Char) : Apart sep (pieces sep cs) := by
  refine pieces_induction (P := fun _ parts => Apart sep parts) (fun cs h => ?_) (fun a b _ ha hrun ih => ?_) cs
  · exact ⟨by simpa using h, by simp⟩
  · refine ⟨List.forall_mem_cons.2 ⟨ha, ih.uncut⟩, ?_⟩
    rw [List.dropLast_cons_of_ne_nil (pieces_ne_nil sep b)]
    exact List.forall_mem_cons.2 ⟨hrun, ih.closed⟩

/-- **Parts that stay apart are the parts of the text they make.** -/
theorem Apart.pieces_intercalate {sep : Char} (hsep : Cuts sep) : ∀ {parts : List (List Char)}, Apart sep parts →
    parts ≠ [] → pieces sep ([sep].intercalate parts) = parts
  | [], _, hne => absurd rfl hne
  | [part], h, _ => by
    rw [List.intercalate_singleton]
    exact pieces_of_uncut (h.uncut part List.mem_cons_self)
  | part :: next :: parts, ⟨huncut, hclosed⟩, _ => by
    rw [List.forall_mem_cons] at huncut
    rw [List.dropLast_cons_of_ne_nil (List.cons_ne_nil _ _), List.forall_mem_cons] at hclosed
    have ih := Apart.pieces_intercalate hsep ⟨huncut.2, hclosed.2⟩ (List.cons_ne_nil _ _)
    rw [List.intercalate_cons_cons, List.append_assoc, List.singleton_append,
      pieces_append_cons hsep huncut.1 hclosed.1, ih]

/-! ## Counting cuts -/

theorem countP_positionsFrom (sep : Char) {all : List Char} : ∀ (cs : List Char) (ms : List Bool) (k : Nat),
    all.drop k = cs → ms.length = cs.length →
      (positionsFrom k ms).countP (fun i => all[i]? == some sep) = (cs.zip ms).countP (isCut sep)
  | [], ms, k, _, hlength => by
    rw [List.length_eq_zero_iff.1 hlength]
    rfl
  | c :: cs, m :: ms, k, hdrop, hlength => by
    have hself : all[k]? = some c := by
      rw [← List.head?_drop, hdrop]
      rfl
    have hrest : all.drop (k + 1) = cs := by
      rw [← List.tail_drop, hdrop]
      rfl
    have ih := countP_positionsFrom sep cs ms (k + 1) hrest (Nat.succ.inj hlength)
    cases m <;> simp [positionsFrom, List.countP_cons, isCut, hself, ih]

/-- The top-level separators of a text. -/
def cutCount (sep : Char) (cs : List Char) : Nat := (topLevelAt .delimiters cs).countP fun i => cs[i]? == some sep

theorem cutCount_eq (sep : Char) (cs : List Char) : cutCount sep cs = (marked .delimiters cs).countP (isCut sep) :=
  countP_positionsFrom sep cs _ 0 rfl (marks_length _ cs)

theorem length_pieces (sep : Char) (cs : List Char) : (pieces sep cs).length = cutCount sep cs + 1 := by
  rw [cutCount_eq]
  refine pieces_induction (P := fun cs parts => parts.length = (marked .delimiters cs).countP (isCut sep) + 1)
    (fun cs h => ?_) (fun a b hsep ha hrun ih => ?_) cs
  · rw [List.countP_eq_zero.2 fun m hm => by simp [h m hm]]
    rfl
  · have hnone : (marked .delimiters a).countP (isCut sep) = 0 := List.countP_eq_zero.2 fun m hm => by simp [ha m hm]
    rw [marked_append_cons hsep hrun, List.countP_append, hnone, List.length_cons, ih]
    simp [isCut]

/-! ## The last part -/

theorem dropBlankLast_concat (last : List Char) : ∀ parts : List (List Char),
    dropBlankLast (parts ++ [last]) = if allBlank last then parts else parts ++ [last]
  | [] => rfl
  | [part] => by
    rw [List.singleton_append, dropBlankLast, dropBlankLast]
    split <;> rfl
  | part :: next :: parts => by
    have ih := dropBlankLast_concat last (next :: parts)
    rw [List.cons_append, List.cons_append, dropBlankLast, ← List.cons_append, ih]
    split <;> rfl

theorem intercalate_concat (sep last : List Char) : ∀ {parts : List (List Char)}, parts ≠ [] →
    sep.intercalate (parts ++ [last]) = sep.intercalate parts ++ sep ++ last
  | [], hne => absurd rfl hne
  | [part], _ => by simp [List.intercalate_cons_cons]
  | part :: next :: parts, _ => by
    have ih := intercalate_concat sep last (List.cons_ne_nil next parts)
    rw [List.cons_append, List.cons_append, List.intercalate_cons_cons, ← List.cons_append, ih,
      List.intercalate_cons_cons]
    simp only [List.append_assoc]

/-- The parts of a text, with what was dropped behind them: nothing, or a last part that is blank. -/
theorem splitTopLevel_cases (sep : Char) (cs : List Char) :
    (splitTopLevel sep cs = pieces sep cs ∧ ∃ last, (pieces sep cs).getLast? = some last ∧ allBlank last = false) ∨
      ∃ tail, allBlank tail = true ∧ pieces sep cs = splitTopLevel sep cs ++ [tail] := by
  obtain ⟨front, last, he⟩ := (List.eq_nil_or_concat (pieces sep cs)).resolve_left (pieces_ne_nil sep cs)
  rw [List.concat_eq_append] at he
  rw [splitTopLevel_eq, he, dropBlankLast_concat]
  cases hblank : allBlank last with
  | false => exact Or.inl ⟨rfl, last, by simp, hblank⟩
  | true => exact Or.inr ⟨last, hblank, rfl⟩

/-- The last part is empty if a separator ends the text. -/
theorem getLast?_pieces_eq_nil {sep : Char} (cs : List Char) :
    (pieces sep cs).getLast? = some [] ↔ cs = [] ∨ (marked .delimiters cs).getLast? = some (sep, true) := by
  refine pieces_induction (P := fun cs parts => parts.getLast? = some [] ↔
    cs = [] ∨ (marked .delimiters cs).getLast? = some (sep, true)) (fun cs h => ?_) (fun a b hcuts _ hrun ih => ?_) cs
  · have hno : (marked .delimiters cs).getLast? ≠ some (sep, true) := by
      intro hlast
      have hcut := h _ (List.mem_of_getLast? hlast)
      simp [isCut] at hcut
    simp [hno]
  · rw [List.getLast?_cons_of_ne_nil (pieces_ne_nil sep b), ih, marked_append_cons hcuts hrun, List.getLast?_append,
      List.getLast?_cons]
    cases hb : (marked .delimiters b).getLast? with
    | none =>
      have hnil : b = [] := by
        rw [← marked_map_fst .delimiters b, List.getLast?_eq_none_iff.1 hb]
        rfl
      simp [hnil]
    | some m =>
      have hne : b ≠ [] := by
        rintro rfl
        cases hb
      simp [hne]

/-- **Splitting at top level is exact.**  The parts with separators between them are the text, but for a blank tail and
the separator before it; there are as many cuts as top-level separators; no part has one when it is scanned on its own.
And where nothing is escaped, what follows any top-level character is scanned as if it stood alone. -/
theorem splitTopLevel_exact (sep : Char) (cs : List Char) :
    (((splitTopLevel sep cs).length = cutCount sep cs + 1 ∧ [sep].intercalate (splitTopLevel sep cs) = cs ∧
        ∃ last, (splitTopLevel sep cs).getLast? = some last ∧ allBlank last = false) ∨
      ∃ tail, allBlank tail = true ∧ findTopLevel? sep tail = none ∧ (splitTopLevel sep cs).length = cutCount sep cs ∧
        ((splitTopLevel sep cs = [] ∧ cs = tail) ∨
          (splitTopLevel sep cs ≠ [] ∧ cs = [sep].intercalate (splitTopLevel sep cs) ++ sep :: tail))) ∧
    (∀ part ∈ splitTopLevel sep cs, findTopLevel? sep part = none) ∧
    ∀ mode, ∀ i ∈ topLevelAt mode cs, (mode.escapes = true → cs[i]? ≠ some '\\') →
      (topLevelAt mode cs).filter (i < ·) = (topLevelAt mode (cs.drop (i + 1))).map (· + (i + 1)) := by
  have hjoin := intercalate_pieces sep cs
  have hlength := length_pieces sep cs
  have huncut : ∀ part ∈ pieces sep cs, findTopLevel? sep part = none :=
    fun part hp => uncut_iff.1 ((apart_pieces sep cs).uncut part hp)
  refine ⟨?_, fun part hp => huncut part (dropBlankLast_subset _ hp), fun mode i hi hslash => topLevelAt_drop hi hslash⟩
  rcases splitTopLevel_cases sep cs with ⟨he, hlast⟩ | ⟨tail, htail, he⟩
  · rw [he]
    exact Or.inl ⟨hlength, hjoin, hlast⟩
  · rw [he] at hjoin hlength huncut
    refine Or.inr ⟨tail, htail, huncut tail (by simp), by simpa using hlength, ?_⟩
    by_cases hnil : splitTopLevel sep cs = []
    · rw [hnil] at hjoin
      exact Or.inl ⟨hnil, by simpa using hjoin.symm⟩
    · rw [intercalate_concat _ _ hnil] at hjoin
      exact Or.inr ⟨hnil, by simpa using hjoin.symm⟩

example : splitTopLevel ',' "a),(b,c), 'd,".toList = ["a)".toList, "(b,c)".toList, " 'd,".toList] := by decide

end Offside
