import Offside.Proofs.Stripping

/-!
# Where the lines of a source come from

A source is read one character after the other, and a character is written with one
character of the source or, if it is a line break, with up to two (`spell`).  So places
only grow, and a line can be found again from its offset: it lies there as it is while
nothing is taken out (`Spelled.exists_append`), and whatever is taken out it begins with the
character that stood there (`offset_of_splitLines`).
-/
namespace Offside

/-! ## Characters and how they are written -/

/-- The characters of a source as they are read, each with the way it is written. -/
def spell : List Char → List (Char × List Char)
  | [] => []
  | '\r' :: '\n' :: cs => ('\n', ['\r', '\n']) :: spell cs
  | '\r' :: cs => ('\n', ['\r']) :: spell cs
  | c :: cs => (c, [c]) :: spell cs

/-- The characters at their places, the first one at `i`. -/
def placeSpelled : Nat → List (Char × List Char) → List Placed
  | _, [] => []
  | i, (c, word) :: ws => (c, i) :: placeSpelled (i + word.length) ws

def unspell (ws : List (Char × List Char)) : List Char := ws.flatMap Prod.snd

theorem length_unspell_cons (w : Char × List Char) (ws : List (Char × List Char)) :
    (unspell (w :: ws)).length = w.2.length + (unspell ws).length := List.length_append

theorem placeFrom_eq_spelled (i : Nat) (cs : List Char) : placeFrom i cs = placeSpelled i (spell cs) := by
  fun_induction placeFrom i cs <;> simp_all [spell, placeSpelled]

theorem unspell_spell (cs : List Char) : unspell (spell cs) = cs := by
  fun_induction spell cs <;> simp_all [unspell]

/-- A character stands for itself, or it is LF and stands for a line break. -/
theorem mem_spell {cs : List Char} {w : Char × List Char} (h : w ∈ spell cs) :
    w.2 = [w.1] ∨ (w.1 = '\n' ∧ (w.2 = ['\r', '\n'] ∨ w.2 = ['\r'])) := by
  fun_induction spell cs with
  | case1 => cases h
  | case2 cs ih => exact (List.mem_cons.1 h).elim (fun h => by simp [h]) ih
  | case3 cs _ ih => exact (List.mem_cons.1 h).elim (fun h => by simp [h]) ih
  | case4 c cs _ _ ih => exact (List.mem_cons.1 h).elim (fun h => by simp [h]) ih

/-- How characters may be written: with something, and only LF in another way than as itself. -/
structure Spelled (ws : List (Char × List Char)) : Prop where
  pos : ∀ w ∈ ws, 0 < w.2.length
  itself : ∀ w ∈ ws, w.1 ≠ '\n' → w.2 = [w.1]

theorem spelled_spell (cs : List Char) : Spelled (spell cs) where
  pos w hw := by rcases mem_spell hw with h | ⟨-, h | h⟩ <;> simp [h]
  itself w hw hn := (mem_spell hw).resolve_right fun h => hn h.1

theorem Spelled.tail {w : Char × List Char} {ws : List (Char × List Char)} (h : Spelled (w :: ws)) : Spelled ws :=
  ⟨fun v hv => h.pos v (List.mem_cons_of_mem w hv), fun v hv => h.itself v (List.mem_cons_of_mem w hv)⟩

theorem Spelled.ascending : ∀ {ws : List (Char × List Char)} (i : Nat), Spelled ws →
    (((placeSpelled i ws).map Prod.snd ++ [i + (unspell ws).length]).Pairwise (· < ·)) ∧
      ∀ k ∈ (placeSpelled i ws).map Prod.snd ++ [i + (unspell ws).length], i ≤ k
  | [], i, _ => by simp [placeSpelled, unspell]
  | (c, word) :: ws, i, h => by
    have hpos : 0 < word.length := h.pos _ List.mem_cons_self
    obtain ⟨hpair, hle⟩ := h.tail.ascending (i + word.length)
    rw [length_unspell_cons, ← Nat.add_assoc, placeSpelled, List.map_cons, List.cons_append]
    refine ⟨hpair.cons fun k hk => ?_, fun k hk => ?_⟩
    · have := hle k hk
      omega
    · rcases List.mem_cons.1 hk with rfl | hk
      · exact Nat.le_refl _
      · have := hle k hk
        omega

/-! ## Reading a place -/

/-- The character read at a place.  A line break is read as LF where it begins, and the LF of a CRLF is not read. -/
def charAt? (source : List Char) (i : Nat) : Option Char :=
  if source[i]? = some '\r' then some '\n'
  else if source[i]? = some '\n' ∧ 0 < i ∧ source[i - 1]? = some '\r' then none
  else source[i]?

theorem charAt?_return (before cs : List Char) : charAt? (before ++ '\r' :: cs) before.length = some '\n' := by
  simp [charAt?]

theorem charAt?_other (before : List Char) {c : Char} (cs : List Char) (hr : c ≠ '\r')
    (hn : c = '\n' → before.getLast? ≠ some '\r') : charAt? (before ++ c :: cs) before.length = some c := by
  have hlast : ¬(c = '\n' ∧ 0 < before.length ∧ (before ++ c :: cs)[before.length - 1]? = some '\r') := by
    rintro ⟨hc, hpos, h⟩
    rw [List.getElem?_append_left (by omega), ← List.getLast?_eq_getElem?] at h
    exact hn hc h
  simp only [charAt?, List.getElem?_append_right (Nat.le_refl _), Nat.sub_self, List.getElem?_cons_zero,
    Option.some.injEq]
  rw [if_neg hr, if_neg hlast]

/-- **What is placed is what is read there**; `before` is the part of the source that lies behind. -/
theorem charAt?_of_mem_placeFrom {i : Nat} {cs : List Char} {p : Placed} (hp : p ∈ placeFrom i cs) :
    ∀ before : List Char, before.length = i → (cs.head? = some '\n' → before.getLast? ≠ some '\r') →
      charAt? (before ++ cs) p.2 = some p.1 := by
  fun_induction placeFrom i cs with
  | case1 i => cases hp
  | case2 i cs ih =>
    intro before hlen _
    rcases List.mem_cons.1 hp with rfl | hp
    · rw [← hlen]
      exact charAt?_return before _
    · simpa using ih hp (before ++ ['\r', '\n']) (by simp [hlen]) fun _ => by simp
  | case3 i cs hcs ih =>
    intro before hlen _
    have hnext : cs.head? ≠ some '\n' := fun h => by
      obtain ⟨ds, rfl⟩ := List.head?_eq_some_iff.1 h
      exact hcs ds rfl
    rcases List.mem_cons.1 hp with rfl | hp
    · rw [← hlen]
      exact charAt?_return before _
    · simpa using ih hp (before ++ ['\r']) (by simp [hlen]) fun h => absurd h hnext
  | case4 i c cs _ hr ih =>
    intro before hlen hn
    rcases List.mem_cons.1 hp with rfl | hp
    · rw [← hlen]
      exact charAt?_other before cs hr fun h => hn (by rw [h]; rfl)
    · simpa using ih hp (before ++ [c]) (by simp [hlen]) fun _ => by simpa using hr

/-! ## Lines of placed characters -/

theorem splitLines_cons_of_ne (stop : Nat) {c : Char} (hc : c ≠ '\n') (i : Nat) (ps : List Placed) :
    ∃ line lines, splitLines stop ps = line :: lines ∧
      splitLines stop ((c, i) :: ps) = { text := c :: line.text, offset := i } :: lines := by
  cases h : splitLines stop ps with
  | nil => exact absurd h (splitLines_ne_nil stop ps)
  | cons line lines => exact ⟨line, lines, rfl, by simp [splitLines, hc, h]⟩

theorem splitLines_cons_break (stop i : Nat) (ps : List Placed) :
    splitLines stop (('\n', i) :: ps) = { text := [], offset := i } :: splitLines stop ps := rfl

/-- The offsets of the lines are places of characters, in their order, and perhaps the end. -/
theorem offsets_sublist (stop : Nat) : ∀ ps : List Placed,
    ((splitLines stop ps).map Line.offset).Sublist (ps.map Prod.snd ++ [stop])
  | [] => List.Sublist.refl _
  | (c, i) :: ps => by
    have ih := offsets_sublist stop ps
    by_cases hc : c = '\n'
    · rw [hc]
      exact ih.cons_cons i
    · obtain ⟨line, lines, hs, hcons⟩ := splitLines_cons_of_ne stop hc i ps
      rw [hs] at ih
      rw [hcons]
      exact ((List.sublist_cons_self _ _).trans ih).cons_cons i

/-- The text up to where a line begins: the lines before it, each with its LF. -/
def textBefore (lines : List Line) : List Char := lines.flatMap fun line => line.text ++ ['\n']

theorem length_textBefore_cons (line : Line) (lines : List Line) :
    (textBefore (line :: lines)).length = line.text.length + (textBefore lines).length + 1 := by
  simp only [textBefore, List.flatMap_cons, List.length_append, List.length_cons, List.length_nil]
  omega

/-- **A line begins where its first character was**, or its LF if it is empty, or the end. -/
theorem offset_of_splitLines (stop : Nat) : ∀ {ps : List Placed} {before after : List Line} {line : Line},
    splitLines stop ps = before ++ line :: after →
      (ps.map Prod.snd ++ [stop])[(textBefore before).length]? = some line.offset
  | [], [], after, line, h => by
    cases h
    rfl
  | [], _ :: before, after, line, h => by simp [splitLines] at h
  | (c, i) :: ps, before, after, line, h => by
    by_cases hc : c = '\n'
    · subst hc
      rw [splitLines_cons_break] at h
      cases before with
      | nil =>
        cases h
        rfl
      | cons first before =>
        obtain ⟨rfl, hrest⟩ := List.cons.inj h
        have ih := @offset_of_splitLines stop ps before after line hrest
        rw [length_textBefore_cons, List.length_nil, Nat.zero_add]
        exact ih
    · obtain ⟨head, lines, hs, hcons⟩ := splitLines_cons_of_ne stop hc i ps
      rw [hcons] at h
      cases before with
      | nil =>
        cases h
        rfl
      | cons first before =>
        -- the first line is longer by one than the one that begins behind this character
        obtain ⟨rfl, rfl⟩ := List.cons.inj h
        have ih := @offset_of_splitLines stop ps (head :: before) after line hs
        rw [length_textBefore_cons] at ih ⊢
        rw [List.length_cons, Nat.add_right_comm head.text.length]
        exact ih

theorem head_offset (stop : Nat) (ps : List Placed) :
    (splitLines stop ps).head?.map Line.offset = (ps.map Prod.snd ++ [stop])[0]? := by
  cases h : splitLines stop ps with
  | nil => exact absurd h (splitLines_ne_nil stop ps)
  | cons line lines => exact (offset_of_splitLines stop (h.trans (List.nil_append _).symm)).symm

theorem intercalate_splitLines (stop : Nat) (ps : List Placed) :
    ['\n'].intercalate ((splitLines stop ps).map Line.text) = ps.map Prod.fst := by
  rw [splitLines_texts, List.intercalate_splitOn]

/-! ## Lines of a whole source -/

/-- The line breaks of a source, as they are written. -/
def lineBreaks (source : List Char) : List (List Char) :=
  ((spell source).filter fun w => w.1 == '\n').map Prod.snd

theorem mem_lineBreaks {source b : List Char} (h : b ∈ lineBreaks source) :
    b = ['\n'] ∨ b = ['\r', '\n'] ∨ b = ['\r'] := by
  obtain ⟨w, hw, rfl⟩ := List.mem_map.1 h
  obtain ⟨hw, hn⟩ := List.mem_filter.1 hw
  rcases mem_spell hw with hself | ⟨-, hbreak⟩
  · rw [hself, beq_iff_eq.1 hn]
    exact Or.inl rfl
  · exact Or.inr hbreak

/-- **The lines with their breaks behind them are the source.** -/
theorem Spelled.flatten_lines : ∀ {ws : List (Char × List Char)} (stop i : Nat), Spelled ws →
    (splitLines stop (placeSpelled i ws)).length = (ws.filter fun w => w.1 == '\n').length + 1 ∧
    (List.zipWith (fun line b => line.text ++ b) (splitLines stop (placeSpelled i ws))
      ((ws.filter fun w => w.1 == '\n').map Prod.snd ++ [[]])).flatten = unspell ws
  | [], stop, i, _ => ⟨rfl, rfl⟩
  | (c, word) :: ws, stop, i, h => by
    obtain ⟨hlen, hflat⟩ := h.tail.flatten_lines stop (i + word.length)
    by_cases hc : c = '\n'
    · subst hc
      rw [placeSpelled, splitLines_cons_break, List.filter_cons_of_pos rfl]
      refine ⟨by rw [List.length_cons, List.length_cons, hlen], ?_⟩
      rw [List.map_cons, List.cons_append, List.zipWith_cons_cons, List.flatten_cons, hflat]
      rfl
    · obtain ⟨line, lines, hs, hcons⟩ := splitLines_cons_of_ne stop hc i (placeSpelled (i + word.length) ws)
      have hword : word = [c] := h.itself _ List.mem_cons_self hc
      rw [placeSpelled, hcons, List.filter_cons_of_neg (by simpa using hc)]
      rw [hs] at hlen hflat
      refine ⟨hlen, ?_⟩
      cases hb : (ws.filter fun w => w.1 == '\n').map Prod.snd ++ [[]] with
      | nil => simp at hb
      | cons b bs =>
        rw [hb, List.zipWith_cons_cons, List.flatten_cons] at hflat
        rw [List.zipWith_cons_cons, List.flatten_cons, List.cons_append, List.cons_append, hflat, unspell, unspell,
          List.flatMap_cons, hword, List.singleton_append]

theorem first_offset (i : Nat) (ws : List (Char × List Char)) :
    (splitLines (i + (unspell ws).length) (placeSpelled i ws)).head?.map Line.offset = some i := by
  rw [head_offset]
  cases ws <;> rfl

/-- **A line lies in the source at its offset.** -/
theorem Spelled.exists_append : ∀ {ws : List (Char × List Char)} (i : Nat) {line : Line}, Spelled ws →
    line ∈ splitLines (i + (unspell ws).length) (placeSpelled i ws) →
      ∃ before after, unspell ws = before ++ line.text ++ after ∧ line.offset = i + before.length
  | [], i, line, _, hl => by
    obtain rfl := List.mem_singleton.1 hl
    exact ⟨[], [], rfl, rfl⟩
  | (c, word) :: ws, i, line, h, hl => by
    have hcons : unspell ((c, word) :: ws) = word ++ unspell ws := rfl
    have hfirst := first_offset (i + word.length) ws
    rw [length_unspell_cons, ← Nat.add_assoc, placeSpelled] at hl
    generalize hps : placeSpelled (i + word.length) ws = ps at hl hfirst
    generalize hstop : i + word.length + (unspell ws).length = stop at hl hfirst
    have hmore : ∀ l ∈ splitLines stop ps,
        ∃ before after, unspell ws = before ++ l.text ++ after ∧ l.offset = i + word.length + before.length :=
      fun l hl => h.tail.exists_append (i + word.length) (by rw [hps, hstop]; exact hl)
    have hlater : line ∈ splitLines stop ps →
        ∃ before after, unspell ((c, word) :: ws) = before ++ line.text ++ after ∧ line.offset = i + before.length := by
      intro hl
      obtain ⟨before, after, heq, hoff⟩ := hmore line hl
      exact ⟨word ++ before, after, by simp [hcons, heq], by simp [hoff, Nat.add_assoc]⟩
    by_cases hc : c = '\n'
    · subst hc
      rw [splitLines_cons_break] at hl
      rcases List.mem_cons.1 hl with rfl | hl
      · exact ⟨[], _, rfl, rfl⟩
      · exact hlater hl
    · obtain ⟨first, lines, hs, hsplit⟩ := splitLines_cons_of_ne stop hc i ps
      rw [hsplit] at hl
      rw [hs] at hmore hlater hfirst
      rcases List.mem_cons.1 hl with rfl | hl
      · -- what follows its first character begins a line of its own, right behind it
        obtain ⟨before, after, heq, hoff⟩ := hmore first List.mem_cons_self
        have hoffset : first.offset = i + word.length := by simpa using hfirst
        obtain rfl : before = [] := List.eq_nil_of_length_eq_zero (by omega)
        have hword : word = [c] := h.itself _ List.mem_cons_self hc
        exact ⟨[], after, by rw [hcons, heq, hword]; rfl, rfl⟩
      · exact hlater (List.mem_cons_of_mem first hl)

/-! ## The offset map -/

/-- The characters of a source that are left for its lines. -/
def kept (strip : Bool) (source : List Char) : List Placed := if strip then stripComments (place source) else place source

theorem prepare_eq (strip : Bool) (source : List Char) :
    prepare strip source = splitLines source.length (kept strip source) := rfl

theorem kept_sublist (strip : Bool) (source : List Char) : (kept strip source).Sublist (place source) := by
  cases strip with
  | false => exact List.Sublist.refl _
  | true => exact strip_sublist Prod.fst _

theorem place_eq_spelled (source : List Char) : place source = placeSpelled 0 (spell source) :=
  placeFrom_eq_spelled 0 source

theorem kept_ascending (strip : Bool) (source : List Char) :
    ((kept strip source).map Prod.snd ++ [source.length]).Pairwise (· < ·) := by
  have hall := ((spelled_spell source).ascending 0).1
  rw [unspell_spell, Nat.zero_add, ← place_eq_spelled] at hall
  exact hall.sublist (((kept_sublist strip source).map Prod.snd).append (List.Sublist.refl _))

theorem prepare_eq_spelled (source : List Char) : prepare false source =
    splitLines (0 + (unspell (spell source)).length) (placeSpelled 0 (spell source)) := by
  rw [unspell_spell, Nat.zero_add, ← place_eq_spelled]
  rfl

/-- **Offsets only grow**, and none is behind the end. -/
theorem prepare_ascending (strip : Bool) (source : List Char) :
    ((prepare strip source).map Line.offset).Pairwise (· < ·) ∧
      ∀ line ∈ prepare strip source, line.offset ≤ source.length := by
  have hpair := kept_ascending strip source
  have hsub := offsets_sublist source.length (kept strip source)
  refine ⟨hpair.sublist hsub, fun line hl => ?_⟩
  rcases List.mem_append.1 (hsub.subset (List.mem_map_of_mem hl)) with hm | hm
  · exact Nat.le_of_lt ((List.pairwise_append.1 hpair).2.2 _ hm _ List.mem_cons_self)
  · exact Nat.le_of_eq (List.mem_singleton.1 hm)

/-- **The lines can be followed back to the source**: `origins` says for each character of their text where it was read,
and each line begins with the one at its offset. -/
structure Traced (source : List Char) (lines : List Line) (origins : List Nat) : Prop where
  ascending : origins.Pairwise (· < ·)
  reads : origins.map (charAt? source) = (['\n'].intercalate (lines.map Line.text)).map some
  begins : ∀ before line after, lines = before ++ line :: after →
    (origins ++ [source.length])[(textBefore before).length]? = some line.offset

theorem prepare_traced (strip : Bool) (source : List Char) :
    Traced source (prepare strip source) ((kept strip source).map Prod.snd) where
  ascending := (List.pairwise_append.1 (kept_ascending strip source)).1
  reads := by
    rw [prepare_eq, intercalate_splitLines, List.map_map, List.map_map]
    refine List.map_congr_left fun p hp => ?_
    exact charAt?_of_mem_placeFrom ((kept_sublist strip source).subset hp) [] rfl fun _ => by simp
  begins before line after h := offset_of_splitLines source.length h

/-- The text of the lines is what stripping leaves of the source with its breaks read as LF. -/
theorem prepare_text (source : List Char) :
    ['\n'].intercalate ((prepare true source).map Line.text) = strip id (unifyBreaks source) := by
  rw [prepare_eq, intercalate_splitLines]
  show (stripComments (place source)).map Prod.fst = _
  rw [stripComments, map_strip, place, placeFrom_map_fst]

/-- **The offset map.**  Offsets grow and stay inside the source.  While nothing is taken out, every line lies in the
source at its offset, and the lines with the breaks of the source between them are the source.  With the comments taken
out, the text is part of the source and each of its characters can be traced. -/
theorem prepare_offsets (source : List Char) :
    (∀ strip, ((prepare strip source).map Line.offset).Pairwise (· < ·) ∧
      ∀ line ∈ prepare strip source, line.offset ≤ source.length) ∧
    ((∀ line ∈ prepare false source, (source.drop line.offset).take line.text.length = line.text) ∧
      (prepare false source).head?.map Line.offset = some 0 ∧
      (prepare false source).length = (lineBreaks source).length + 1 ∧
      (∀ b ∈ lineBreaks source, b = ['\n'] ∨ b = ['\r', '\n'] ∨ b = ['\r']) ∧
      (List.zipWith (fun line b => line.text ++ b) (prepare false source) (lineBreaks source ++ [[]])).flatten =
        source) ∧
    (['\n'].intercalate ((prepare true source).map Line.text) = strip id (unifyBreaks source) ∧
      (strip id (unifyBreaks source)).Sublist (unifyBreaks source) ∧
      ∃ origins, Traced source (prepare true source) origins) := by
  have hspelled := spelled_spell source
  refine ⟨fun strip => prepare_ascending strip source, ⟨fun line hl => ?_, ?_, ?_, fun b => mem_lineBreaks, ?_⟩,
    prepare_text source, strip_sublist id _, _, prepare_traced true source⟩
  · rw [prepare_eq_spelled] at hl
    obtain ⟨before, after, heq, hoff⟩ := hspelled.exists_append 0 hl
    rw [unspell_spell] at heq
    rw [hoff, Nat.zero_add]
    conv_lhs => rw [heq]
    simp
  · rw [prepare_eq_spelled]
    exact first_offset 0 (spell source)
  · rw [prepare_eq_spelled, lineBreaks, List.length_map]
    exact (hspelled.flatten_lines _ 0).1
  · have := (hspelled.flatten_lines (0 + (unspell (spell source)).length) 0).2
    rwa [← prepare_eq_spelled, unspell_spell] at this

end Offside
