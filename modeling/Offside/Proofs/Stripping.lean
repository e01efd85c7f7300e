import Offside.Proofs.Lines
import Offside.Proofs.Markers

/-!
# Taking comments out, line by line

Stripping works on the whole text and knows nothing of quotes.  Where every block
comment ends on the line it begins on, it works on each line alone
(`prepare_strip_texts`), and on a *tidy* line it takes out what the search for
markers finds: the code is left, and blanks (`trimRight_strip`).
-/
namespace Offside

/-! ## The positions aside -/

theorem put_blockAt {α : Type} (char : α → Char) {cs : List α} {found : Found α} (h : blockAt char cs = some found) :
    found.put = [] := by
  unfold blockAt at h
  split at h
  · split at h
    · obtain ⟨rest, -, rfl⟩ := Option.map_eq_some_iff.1 h
      rfl
    · cases h
  · cases h

section

/-! What is carried along with the characters may be changed by `g`, as long as the characters stay. -/

variable {α β : Type} {char : α → Char} {char' : β → Char} {g : α → β} (hg : ∀ a, char' (g a) = char a)
include hg

theorem map_afterCloser : ∀ cs : List α, (afterCloser char cs).map (List.map g) = afterCloser char' (cs.map g)
  | [] => rfl
  | [_] => rfl
  | a :: b :: cs => by
    rw [afterCloser, List.map_cons, List.map_cons, afterCloser, ← List.map_cons, hg, hg]
    split
    · rfl
    · exact map_afterCloser (b :: cs)

theorem blockAt_map (cs : List α) :
    blockAt char' (cs.map g) = (blockAt char cs).map fun found => { put := [], more := found.more } := by
  match cs with
  | [] => rfl
  | [_] => rfl
  | a :: b :: cs =>
    rw [List.map_cons, List.map_cons, blockAt, blockAt, ← map_afterCloser hg, hg, hg]
    split
    · rw [Option.map_map, Option.map_map]
      congr 1
      funext rest
      simp
    · rfl

theorem map_replaceFrom_blockAt : ∀ (skip : Nat) (cs : List α),
    (replaceFrom (blockAt char) skip cs).map g = replaceFrom (blockAt char') skip (cs.map g)
  | _, [] => by simp [replaceFrom]
  | skip + 1, c :: cs => map_replaceFrom_blockAt skip cs
  | 0, c :: cs => by
    rw [replaceFrom, List.map_cons, replaceFrom, ← List.map_cons, blockAt_map hg]
    cases h : blockAt char (c :: cs) with
    | none => exact congrArg (g c :: ·) (map_replaceFrom_blockAt 0 cs)
    | some found =>
      simp only [put_blockAt char h, List.nil_append, Option.map_some]
      exact map_replaceFrom_blockAt found.more cs

theorem map_dropLineComments : ∀ (free inside : Bool) (cs : List α),
    (dropLineComments char free inside cs).map g = dropLineComments char' free inside (cs.map g)
  | _, _, [] => rfl
  | free, inside, c :: cs => by
    have hhead : (cs.map g).head?.map char' = cs.head?.map char := by
      cases cs <;> simp [hg]
    rw [List.map_cons, dropLineComments, dropLineComments, hhead, hg]
    split
    · rw [List.map_cons, map_dropLineComments true false cs]
    · split
      · exact map_dropLineComments false true cs
      · split
        · exact map_dropLineComments false true cs
        · rw [List.map_cons, map_dropLineComments (isBlank (char c)) false cs]

/-- What is taken out depends on the characters only. -/
theorem map_strip_of (cs : List α) : (strip char cs).map g = strip char' (cs.map g) := by
  rw [strip, map_dropLineComments hg, dropBlocks, replaceAll, map_replaceFrom_blockAt hg]
  rfl

end

theorem map_strip {α : Type} (char : α → Char) (cs : List α) : (strip char cs).map char = strip id (cs.map char) :=
  @map_strip_of α Char char id char (fun _ => rfl) cs

/-! ## One line after the other -/

def blocksClosedFrom : (skip : Nat) → List Char → Bool
  | _, [] => true
  | skip + 1, _ :: cs => blocksClosedFrom skip cs
  | 0, c :: cs =>
    match blockAt id (c :: cs) with
    | some found => blocksClosedFrom found.more cs
    | none => !Comment.opener.isPrefixOf (c :: cs) && blocksClosedFrom 0 cs

/-- Every block comment that begins in the text, as stripping sees them, ends in it. -/
def blocksClosed (cs : List Char) : Bool := blocksClosedFrom 0 cs

theorem afterCloser_append {cs rest : List Char} (b : List Char) (h : afterCloser id cs = some rest) :
    afterCloser id (cs ++ b) = some (rest ++ b) := by
  fun_induction afterCloser id cs with
  | case1 => cases h
  | case2 => cases h
  | case3 c d cs hc =>
    cases h
    rw [List.cons_append, List.cons_append, afterCloser, if_pos hc]
  | case4 c d cs hc ih =>
    rw [List.cons_append, List.cons_append, afterCloser, if_neg hc]
    exact ih h

theorem length_afterCloser {cs rest : List Char} (h : afterCloser id cs = some rest) : rest.length + 2 ≤ cs.length := by
  fun_induction afterCloser id cs with
  | case1 => cases h
  | case2 => cases h
  | case3 c d cs hc =>
    cases h
    exact Nat.le_refl _
  | case4 c d cs hc ih => exact Nat.le_succ_of_le (ih h)

/-- A block comment that is closed in a line is the same comment in the text. -/
theorem blockAt_append {cs : List Char} {found : Found Char} (b : List Char) (h : blockAt id cs = some found) :
    blockAt id (cs ++ b) = some found ∧ found.more < cs.length := by
  unfold blockAt at h
  split at h
  · rename_i c d cs
    split at h
    · rename_i hc
      obtain ⟨rest, hr, rfl⟩ := Option.map_eq_some_iff.1 h
      have hlen := length_afterCloser hr
      rw [List.cons_append, List.cons_append, blockAt, if_pos hc, afterCloser_append b hr, Option.map_some]
      refine ⟨?_, ?_⟩
      · simp only [List.length_append, Option.some.injEq, Found.mk.injEq, true_and]
        omega
      · simp only [List.length_cons]
        omega
    · cases h
  · cases h

theorem blockAt_eq_none {cs : List Char} (h : Comment.opener.isPrefixOf cs = false) : blockAt id cs = none := by
  unfold blockAt
  split
  · rename_i c d cs
    rw [if_neg]
    intro hc
    simp only [id_eq, Bool.and_eq_true, beq_iff_eq] at hc
    rw [hc.1, hc.2] at h
    simp [Comment.opener] at h
  · rfl

theorem replaceFrom_line {l : List Char} (rest : List Char) : ∀ {skip : Nat}, skip ≤ l.length →
    blocksClosedFrom skip l = true →
      replaceFrom (blockAt id) skip (l ++ '\n' :: rest) =
        replaceFrom (blockAt id) skip l ++ '\n' :: replaceFrom (blockAt id) 0 rest := by
  induction l with
  | nil =>
    intro skip hskip _
    obtain rfl : skip = 0 := Nat.le_zero.1 hskip
    have hn : blockAt id ('\n' :: rest) = none := blockAt_eq_none rfl
    simp [replaceFrom, hn]
  | cons c cs ih =>
    intro skip hskip hc
    cases skip with
    | succ skip => exact ih (Nat.le_of_succ_le_succ hskip) hc
    | zero =>
      rw [List.cons_append, replaceFrom, replaceFrom, ← List.cons_append]
      rw [blocksClosedFrom] at hc
      cases hb : blockAt id (c :: cs) with
      | some found =>
        obtain ⟨ha, hlt⟩ := blockAt_append ('\n' :: rest) hb
        rw [hb] at hc
        rw [ha]
        simp only [put_blockAt id hb, List.nil_append]
        exact ih (Nat.le_of_lt_succ hlt) hc
      | none =>
        rw [hb, Bool.and_eq_true, Bool.not_eq_true'] at hc
        have ha : blockAt id (c :: cs ++ '\n' :: rest) = none := by
          refine blockAt_eq_none ?_
          cases cs with
          | nil => simp [Comment.opener, List.isPrefixOf]
          | cons d ds => simpa [Comment.opener, List.isPrefixOf] using hc.1
        rw [ha]
        exact congrArg (c :: ·) (ih (Nat.zero_le _) hc.2)

theorem dropLineComments_line (rest : List Char) : ∀ {l : List Char} (free inside : Bool), '\n' ∉ l →
    dropLineComments id free inside (l ++ '\n' :: rest) =
      dropLineComments id free inside l ++ '\n' :: dropLineComments id true false rest
  | [], _, _, _ => rfl
  | c :: cs, free, inside, h => by
    have hc : ¬(id c == '\n') = true := fun he => h (by rw [← beq_iff_eq.1 he]; exact List.mem_cons_self)
    have hcs : '\n' ∉ cs := fun hm => h (List.mem_cons_of_mem c hm)
    have hnext : ((cs ++ '\n' :: rest).head?.map id == some '/') = (cs.head?.map id == some '/') := by
      cases cs <;> rfl
    rw [List.cons_append, dropLineComments, dropLineComments, if_neg hc, if_neg hc, hnext]
    split
    · exact dropLineComments_line rest false true hcs
    · split
      · exact dropLineComments_line rest false true hcs
      · rw [dropLineComments_line rest _ false hcs, List.cons_append]

theorem replaceFrom_blockAt_sublist {α : Type} (char : α → Char) : ∀ (skip : Nat) (cs : List α),
    (replaceFrom (blockAt char) skip cs).Sublist cs
  | _, [] => by simp [replaceFrom]
  | skip + 1, c :: cs => (replaceFrom_blockAt_sublist char skip cs).trans (List.sublist_cons_self c cs)
  | 0, c :: cs => by
    rw [replaceFrom]
    split
    · rename_i found h
      rw [put_blockAt char h, List.nil_append]
      exact (replaceFrom_blockAt_sublist char found.more cs).trans (List.sublist_cons_self c cs)
    · exact (replaceFrom_blockAt_sublist char 0 cs).cons_cons c

theorem dropLineComments_sublist {α : Type} (char : α → Char) : ∀ (free inside : Bool) (cs : List α),
    (dropLineComments char free inside cs).Sublist cs
  | _, _, [] => List.Sublist.refl _
  | free, inside, c :: cs => by
    rw [dropLineComments]
    split
    · exact (dropLineComments_sublist char true false cs).cons_cons c
    · split
      · exact (dropLineComments_sublist char false true cs).trans (List.sublist_cons_self c cs)
      · split
        · exact (dropLineComments_sublist char false true cs).trans (List.sublist_cons_self c cs)
        · exact (dropLineComments_sublist char _ false cs).cons_cons c

/-- Stripping only takes out. -/
theorem strip_sublist {α : Type} (char : α → Char) (cs : List α) : (strip char cs).Sublist cs :=
  (dropLineComments_sublist char true false _).trans (replaceFrom_blockAt_sublist char 0 cs)

theorem strip_line {l : List Char} (hl : '\n' ∉ l) (hc : blocksClosed l = true) (rest : List Char) :
    strip id (l ++ '\n' :: rest) = strip id l ++ '\n' :: strip id rest := by
  have hblocks := replaceFrom_line rest (Nat.zero_le l.length) hc
  rw [strip, dropBlocks, replaceAll, hblocks,
    dropLineComments_line _ _ _ fun h => hl ((replaceFrom_blockAt_sublist id 0 l).subset h)]
  rfl

theorem strip_intercalate : ∀ {lines : List (List Char)}, (∀ l ∈ lines, '\n' ∉ l ∧ blocksClosed l = true) →
    strip id (['\n'].intercalate lines) = ['\n'].intercalate (lines.map (strip id))
  | [], _ => rfl
  | [l], _ => by rw [List.intercalate_singleton, List.map_singleton, List.intercalate_singleton]
  | l :: next :: lines, h => by
    obtain ⟨hl, hc⟩ := h l List.mem_cons_self
    have ih := strip_intercalate fun m hm => h m (List.mem_cons_of_mem l hm)
    rw [List.intercalate_cons_cons, List.append_assoc, List.singleton_append, strip_line hl hc, ih, List.map_cons,
      List.map_cons, List.map_cons, List.intercalate_cons_cons, List.append_assoc, List.singleton_append]

/-- **Stripping works line by line**, if no block comment goes over a line's end. -/
theorem prepare_strip_texts {source : List Char}
    (h : ∀ line ∈ prepare false source, blocksClosed line.text = true) :
    (prepare true source).map Line.text = (prepare false source).map fun line => strip id line.text := by
  have htexts := prepare_texts source
  have hl : ∀ l ∈ (unifyBreaks source).splitOn '\n', '\n' ∉ l ∧ blocksClosed l = true := by
    intro l hl
    refine ⟨not_mem_of_mem_splitOn hl, ?_⟩
    rw [← htexts] at hl
    obtain ⟨line, hm, rfl⟩ := List.mem_map.1 hl
    exact h line hm
  have hstrip := strip_intercalate hl
  rw [List.intercalate_splitOn] at hstrip
  calc (prepare true source).map Line.text
      = ((stripComments (place source)).map Prod.fst).splitOn '\n' := splitLines_texts source.length _
    _ = (strip id (unifyBreaks source)).splitOn '\n' := by
        rw [stripComments, map_strip, place, placeFrom_map_fst]
    _ = ((unifyBreaks source).splitOn '\n').map (strip id) := by
        rw [hstrip, List.splitOn_intercalate]
        · intro l hm
          obtain ⟨m, hs, rfl⟩ := List.mem_map.1 hm
          exact fun hn => (hl m hs).1 ((strip_sublist id m).subset hn)
        · simp [List.splitOn_ne_nil]
    _ = (prepare false source).map fun line => strip id line.text := by
        rw [← htexts, List.map_map]
        rfl

/-! ## Tidy lines -/

/-- Nothing in the text looks like a line comment to stripping; `free` says that one may begin at its front. -/
def noLineComment : (free : Bool) → List Char → Bool
  | _, [] => true
  | free, c :: cs => !(free && c == '/' && cs.head? == some '/') && noLineComment (isBlank c) cs

/-- Whether a line comment may begin behind the text. -/
def freeAfter (free : Bool) (cs : List Char) : Bool :=
  match cs.getLast? with
  | none => free
  | some c => isBlank c

/-- The text is made of blanks and comments that stripping takes out: closed block comments, and a line comment at the
end, which may not look like a block comment behind a slash. -/
def onlyComments : (skip : Nat) → (free : Bool) → List Char → Bool
  | _, _, [] => true
  | skip + 1, free, _ :: cs => onlyComments skip free cs
  | 0, free, c :: cs =>
    if isBlank c then onlyComments 0 true cs
    else
      match blockAt id (c :: cs) with
      | some found => onlyComments found.more free cs
      | none => free && c == '/' && cs.head? == some '/' && cs.tail.head? != some '*'

/-- **A tidy line**: both ways to look for comments find the same ones in it.  Its block comments end in it; quotes hide
no marker; and behind the code there are only comments. -/
def tidy (text : List Char) : Bool :=
  blocksClosed text && !occurs Comment.opener (Comment.code text) && noLineComment true (Comment.code text) &&
    onlyComments 0 (freeAfter true (Comment.code text)) (Comment.tail text)

open Comment in
theorem dropBlocks_append : ∀ {a b : List Char}, occurs opener a = false → apart a b →
    dropBlocks id (a ++ b) = a ++ dropBlocks id b
  | [], _, _, _ => rfl
  | c :: cs, b, h, hab => by
    rw [occurs, Bool.or_eq_false_iff] at h
    have hn : blockAt id (c :: cs ++ b) = none := by
      refine blockAt_eq_none ?_
      cases cs with
      | cons d ds => simpa [opener, List.isPrefixOf] using h.1
      | nil =>
        cases b with
        | nil => simp [opener, List.isPrefixOf]
        | cons d ds =>
          rcases hab with hc | ⟨-, hd⟩
          · have hc : c ≠ '/' := fun he => hc (by rw [he]; rfl)
            simp [opener, List.isPrefixOf, Ne.symm hc]
          · have hd : d ≠ '*' := fun he => hd (by rw [he]; rfl)
            simp [opener, List.isPrefixOf, Ne.symm hd]
    have ih : dropBlocks id (cs ++ b) = cs ++ dropBlocks id b := by
      cases cs with
      | nil => rfl
      | cons d ds => exact dropBlocks_append h.2 (apart_of_cons hab)
    rw [dropBlocks, replaceAll, List.cons_append, replaceFrom, ← List.cons_append, hn]
    exact congrArg (c :: ·) ih

open Comment in
theorem dropLineComments_append : ∀ {a b : List Char} {free : Bool}, noLineComment free a = true → '\n' ∉ a →
    apart a b →
    dropLineComments id free false (a ++ b) = a ++ dropLineComments id (freeAfter free a) false b
  | [], _, _, _, _, _ => rfl
  | c :: cs, b, free, h, hn, hab => by
    rw [noLineComment, Bool.and_eq_true, Bool.not_eq_true'] at h
    have hc : ¬(id c == '\n') = true := fun he => hn (by rw [← beq_iff_eq.1 he]; exact List.mem_cons_self)
    have hm : (free && id c == '/' && (cs ++ b).head?.map id == some '/') = false := by
      rw [← h.1]
      cases cs with
      | cons d ds => rfl
      | nil =>
        cases b with
        | nil => rfl
        | cons d ds =>
          rcases hab with hc | ⟨hd, -⟩
          · have hc : c ≠ '/' := fun he => hc (by rw [he]; rfl)
            simp [hc]
          · have hd : d ≠ '/' := fun he => hd (by rw [he]; rfl)
            simp [hd]
    rw [List.cons_append, dropLineComments, if_neg hc, if_neg Bool.false_ne_true, hm, if_neg Bool.false_ne_true]
    cases cs with
    | nil => rfl
    | cons d ds =>
      have ih := dropLineComments_append h.2 (fun hm => hn (List.mem_cons_of_mem c hm)) (apart_of_cons hab)
      exact congrArg (c :: ·) ih

theorem dropLineComments_inside : ∀ {cs : List Char} {free : Bool}, '\n' ∉ cs → dropLineComments id free true cs = []
  | [], _, _ => rfl
  | c :: cs, _, h => by
    have hc : ¬(id c == '\n') = true := fun he => h (by rw [← beq_iff_eq.1 he]; exact List.mem_cons_self)
    rw [dropLineComments, if_neg hc, if_pos rfl]
    exact dropLineComments_inside fun hm => h (List.mem_cons_of_mem c hm)

theorem allBlank_of_onlyComments : ∀ {cs : List Char} {skip : Nat} {free : Bool}, onlyComments skip free cs = true →
    '\n' ∉ cs → allBlank (dropLineComments id free false (replaceFrom (blockAt id) skip cs)) = true
  | [], _, _, _, _ => by simp [replaceFrom, dropLineComments, allBlank]
  | _ :: cs, skip + 1, free, h, hn => @allBlank_of_onlyComments cs skip free h fun hm => hn (List.mem_cons_of_mem _ hm)
  | c :: cs, 0, free, h, hn => by
    have hcs : '\n' ∉ cs := fun hm => hn (List.mem_cons_of_mem c hm)
    have hc : ¬(id c == '\n') = true := fun he => hn (by rw [← beq_iff_eq.1 he]; exact List.mem_cons_self)
    rw [onlyComments] at h
    rw [replaceFrom]
    split at h
    · rename_i hblank
      have hslash : c ≠ '/' := by
        rintro rfl
        exact absurd hblank (by decide)
      have hb : blockAt id (c :: cs) = none :=
        blockAt_eq_none (by simp [Comment.opener, List.isPrefixOf, Ne.symm hslash])
      have hs : (free && id c == '/' && (replaceFrom (blockAt id) 0 cs).head?.map id == some '/') = false := by
        simp [hslash]
      rw [hb]
      simp only
      rw [dropLineComments, if_neg hc, if_neg Bool.false_ne_true, hs, if_neg Bool.false_ne_true]
      have ih := allBlank_of_onlyComments h hcs
      rw [show isBlank (id c) = true from hblank]
      simpa [allBlank, hblank] using ih
    · cases hb : blockAt id (c :: cs) with
      | some found =>
        rw [hb] at h
        simp only [put_blockAt id hb, List.nil_append]
        exact allBlank_of_onlyComments h hcs
      | none =>
        -- a line comment: both its slashes stay, and everything behind them goes
        rw [hb] at h
        simp only [Bool.and_eq_true, beq_iff_eq, bne_iff_ne] at h
        obtain ⟨⟨⟨rfl, rfl⟩, hnext⟩, hthird⟩ := h
        obtain ⟨ds, rfl⟩ := List.head?_eq_some_iff.1 hnext
        have hd : blockAt id ('/' :: ds) = none := by
          refine blockAt_eq_none ?_
          cases ds with
          | nil => rfl
          | cons e es =>
            have he : e ≠ '*' := fun he => hthird (by rw [he]; rfl)
            simp [Comment.opener, List.isPrefixOf, Ne.symm he]
        have hin := @dropLineComments_inside ('/' :: replaceFrom (blockAt id) 0 ds) false fun hm => by
          rcases List.mem_cons.1 hm with hm | hm
          · cases hm
          · exact hcs (List.mem_cons_of_mem _ ((replaceFrom_blockAt_sublist id 0 ds).subset hm))
        simp only
        rw [replaceFrom, hd]
        simp only
        rw [dropLineComments, if_neg (by decide), if_neg Bool.false_ne_true, if_pos (by simp), hin]
        rfl

/-- **What stripping leaves of a tidy line** is its code, with other blanks behind it. -/
theorem trimRight_strip {text : List Char} (h : tidy text = true) (hn : '\n' ∉ text) :
    trimRight (strip id text) = trimRight (Comment.code text) := by
  simp only [tidy, Bool.and_eq_true, Bool.not_eq_true'] at h
  obtain ⟨⟨⟨-, hopener⟩, hline⟩, honly⟩ := h
  have hsplit := Comment.code_append_tail text
  have hcode : '\n' ∉ Comment.code text := fun hm => hn (by rw [← hsplit]; exact List.mem_append_left _ hm)
  have htail : '\n' ∉ Comment.tail text := fun hm => hn (by rw [← hsplit]; exact List.mem_append_right _ hm)
  have hblank := allBlank_of_onlyComments honly htail
  conv_lhs => rw [← hsplit]
  rw [strip, dropBlocks_append hopener (Comment.apart_code id),
    dropLineComments_append hline hcode (Comment.apart_code fun ht => by rw [ht]; rfl), dropBlocks, replaceAll,
    trimRight_append_blank hblank]

end Offside
