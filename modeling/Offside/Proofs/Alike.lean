import Mathlib.Data.List.Nodup
import Offside.Proofs.Offsets
import Offside.Proofs.Reading

/-!
# Lines that look alike

How deep a line stands is said by its leading run alone, with one exception.  Spaces are
counted, and as many as the first indented line has make a level.  A tab is a level, but
on the first indented line, which may have any number of them and stands at the first
level (`Laid`).  So lines that begin alike stand at the same depth, unless one of them is
that first one and begins with two tabs (`Laid.alike`).
-/
namespace Offside

/-- How many characters of a style make one level, `first` being the number of them on the first indented line. -/
def Style.unit (first : Nat) : Style → Nat
  | .space => first
  | .tab => 1

theorem Style.unit_pos {first : Nat} (h : first ≠ 0) (style : Style) : 0 < style.unit first := by
  cases style with
  | space => exact Nat.pos_of_ne_zero h
  | tab => exact Nat.one_pos

/-- **Leading runs and the depths they stand at**, line after line.  While no step is known nothing is indented. -/
inductive Laid : Indentation → List (List Char × Nat) → Prop
  | flat {ind : Indentation} {rows : List (List Char × Nat)} (hstep : ind.step = none)
      (hflat : ∀ row ∈ rows, row = ([], 0)) : Laid ind rows
  | stepped {ind : Indentation} {flat rest : List (List Char × Nat)} {style : Style} {n s : Nat} (hn : n ≠ 0)
      (hstyle : ind.style = some style) (hstep : ind.step = some s) (hpos : 0 < s) (hspace : style = .space → s = n)
      (hflat : ∀ row ∈ flat, row = ([], 0))
      (hrest : ∀ row ∈ rest, row.1 = List.replicate (row.2 * style.unit n) style.char) :
      Laid ind (flat ++ (List.replicate n style.char, 1) :: rest)

/-- A line that is taken in where a step is known has so many units. -/
theorem Frames.Takes.units {frames : Frames} {ind : Indentation} {text : List Char} {style known : Style} {n m s d : Nat}
    (h : frames.Takes ind text style m d) (hstyle : ind.style = some known) (hstep : ind.step = some s) (hpos : 0 < s)
    (hspace : known = .space → s = n) : leadingRun text = List.replicate (d * known.unit n) known.char := by
  rw [h.measures.run]
  by_cases hm : m = 0
  · rw [hm, h.flat hm, Nat.zero_mul]
    rfl
  · have hagree := h.measures.agrees hm
    obtain rfl : known = style := by simpa [Indentation.agrees, hstyle] using hagree
    have hwhole := h.whole_of_ne_zero hm
    rw [hstep, Option.getD_some] at hwhole
    cases known with
    | space =>
      rw [hspace rfl, Indentation.width, Nat.mul_one] at hwhole
      rw [hwhole, Style.unit]
    | tab =>
      rw [Indentation.width, hstep, Option.getD_some] at hwhole
      rw [Nat.eq_of_mul_eq_mul_right hpos hwhole, Style.unit, Nat.mul_one]

/-- **A line that is taken in is laid behind the others.** -/
theorem Laid.take {ind after : Indentation} {rows : List (List Char × Nat)} {frames : Frames} {text : List Char}
    {style : Style} {n d : Nat} (h : Laid ind rows) (hpos : ∀ s, ind.step = some s → 0 < s)
    (ht : frames.Takes ind text style n d) (hx : after.Extends (ind.settle style n))
    (hstep : after.step = (ind.settle style n).step) : Laid after (rows ++ [(leadingRun text, d)]) := by
  cases h with
  | flat hnone hflat =>
    by_cases hn : n = 0
    · refine .flat (by rw [hstep, hn]; exact hnone) fun row hrow => ?_
      rcases List.mem_append.1 hrow with hrow | hrow
      · exact hflat row hrow
      · rw [List.mem_singleton.1 hrow, ht.measures.run, hn, ht.flat hn]
        rfl
    · -- the first indented line of all
      have hwhole := ht.whole_of_ne_zero hn
      rw [hnone, Option.getD_none] at hwhole
      have hwide : 0 < n * ind.width style := Nat.mul_pos (Nat.pos_of_ne_zero hn) (Indentation.width_pos hpos style)
      obtain rfl : d = 1 := (Nat.eq_of_mul_eq_mul_right hwide (by rw [Nat.one_mul]; exact hwhole)).symm
      rw [Indentation.settle_of_ne_zero _ _ hn, hnone, Option.getD_none] at hx hstep
      rw [ht.measures.run]
      refine .stepped hn (hx.style (by simp)) hstep hwide (fun he => ?_) hflat fun _ hrow => by cases hrow
      rw [he]
      exact Nat.mul_one n
  | @stepped flat rest known m s hm hstyle hs hpos' hspace hflat hrest =>
    have hknown : ind.settle style n = ind :=
      Indentation.settle_of_known (by simp [hstyle]) (by simp [hs]) ht.measures.agrees
    rw [hknown] at hx hstep
    rw [List.append_assoc, List.cons_append]
    refine .stepped hm ((hx.style (by simp [hstyle])).trans hstyle) (hstep.trans hs) hpos' hspace hflat fun row hrow => ?_
    rcases List.mem_append.1 hrow with hrow | hrow
    · exact hrest row hrow
    · rw [List.mem_singleton.1 hrow]
      exact ht.units hstyle hs hpos' hspace

/-- The run at place `i` is that of the first indented line, and begins with two tabs. -/
def FirstTabs (rows : List (List Char × Nat)) (i : Nat) (run : List Char) : Prop :=
  ['\t', '\t'] <+: run ∧ ∀ k row, k < i → rows[k]? = some row → row.1 = []

theorem two_tabs_iff {style : Style} {n : Nat} :
    ['\t', '\t'] <+: List.replicate n style.char ↔ style = .tab ∧ 2 ≤ n := by
  match n with
  | 0 => simp
  | 1 => cases style <;> simp [Style.char]
  | n + 2 => cases style <;> simp [Style.char, List.replicate_succ, List.cons_prefix_cons]

section

variable {flat rest : List (List Char × Nat)} {style : Style} {n : Nat}

/-- Every line but the first indented one has as many units as its depth says. -/
theorem units_of_getElem? (hflat : ∀ row ∈ flat, row = ([], 0))
    (hrest : ∀ row ∈ rest, row.1 = List.replicate (row.2 * style.unit n) style.char) {first row : List Char × Nat} {k : Nat}
    (hk : k ≠ flat.length) (h : (flat ++ first :: rest)[k]? = some row) :
    row.1 = List.replicate (row.2 * style.unit n) style.char := by
  rcases Nat.lt_or_gt_of_ne hk with hlt | hgt
  · rw [List.getElem?_append_left hlt] at h
    rw [hflat row (List.mem_of_getElem? h), Nat.zero_mul]
    rfl
  · rw [List.getElem?_append_right (Nat.le_of_lt hgt)] at h
    obtain ⟨m, hm⟩ := Nat.exists_eq_add_of_lt hgt
    rw [show k - flat.length = m + 1 by omega, List.getElem?_cons_succ] at h
    exact hrest row (List.mem_of_getElem? h)

theorem not_firstTabs (hn : n ≠ 0) (hflat : ∀ row ∈ flat, row = ([], 0)) {d e k : Nat} {run : List Char}
    (hk : k ≠ flat.length) (h : (flat ++ (List.replicate n style.char, d) :: rest)[k]? = some (run, e)) :
    ¬FirstTabs (flat ++ (List.replicate n style.char, d) :: rest) k run := by
  rintro ⟨htabs, hbefore⟩
  rcases Nat.lt_or_gt_of_ne hk with hlt | hgt
  · rw [List.getElem?_append_left hlt] at h
    obtain ⟨rfl, -⟩ := Prod.mk.inj (hflat _ (List.mem_of_getElem? h))
    simp at htabs
  · have hnil := hbefore flat.length (List.replicate n style.char, d) hgt (by simp)
    simp [hn] at hnil

end

/-- **Runs that are alike stand at one depth**, unless the first of them is the first indented line and begins with two
tabs: that one stands at the first level, and the other as deep as it has tabs. -/
theorem Laid.alike {ind : Indentation} {rows : List (List Char × Nat)} (h : Laid ind rows) {i j d e : Nat}
    {run : List Char} (hij : i < j) (hi : rows[i]? = some (run, d)) (hj : rows[j]? = some (run, e)) :
    (FirstTabs rows i run → d = 1 ∧ e = run.length) ∧ (¬FirstTabs rows i run → d = e) := by
  cases h with
  | flat _ hflat =>
    obtain ⟨rfl, rfl⟩ := Prod.mk.inj (hflat _ (List.mem_of_getElem? hi))
    obtain ⟨-, rfl⟩ := Prod.mk.inj (hflat _ (List.mem_of_getElem? hj))
    exact ⟨fun h => by simp [FirstTabs] at h, fun _ => rfl⟩
  | @stepped flat rest style n s hn _ _ _ _ hflat hrest =>
    have hunit := style.unit_pos hn
    have hjf : j ≠ flat.length := by
      rintro rfl
      rw [List.getElem?_append_left hij] at hi
      obtain ⟨rfl, -⟩ := Prod.mk.inj (hflat _ (List.mem_of_getElem? hi))
      simp [hn] at hj
    have he := units_of_getElem? hflat hrest hjf hj
    by_cases hif : i = flat.length
    · -- the first indented line: its run is one level, whatever it is made of
      subst hif
      obtain ⟨rfl, rfl⟩ : List.replicate n style.char = run ∧ 1 = d := by simpa using hi
      have hlen : n = e * style.unit n := (Indentation.replicate_char_inj he).1
      have hfirst : FirstTabs (flat ++ (List.replicate n style.char, 1) :: rest) flat.length
          (List.replicate n style.char) ↔ style = .tab ∧ 2 ≤ n := by
        rw [FirstTabs, two_tabs_iff, and_iff_left]
        intro k row hk hrow
        rw [List.getElem?_append_left hk] at hrow
        rw [hflat row (List.mem_of_getElem? hrow)]
      rw [hfirst]
      cases style with
      | space =>
        refine ⟨fun h => by simp at h, fun _ => ?_⟩
        exact Nat.eq_of_mul_eq_mul_right hunit (by rw [Nat.one_mul]; exact hlen)
      | tab =>
        rw [Style.unit, Nat.mul_one] at hlen
        refine ⟨fun _ => ⟨rfl, by rw [List.length_replicate, hlen]⟩, fun h => ?_⟩
        simp only [true_and, not_le] at h
        omega
    · have hd := units_of_getElem? hflat hrest hif hi
      refine ⟨fun h => absurd h (not_firstTabs hn hflat hif hi), fun _ => ?_⟩
      exact Nat.eq_of_mul_eq_mul_right hunit (Indentation.replicate_char_inj (hd.symm.trans he)).1

/-! ## Along a run -/

/-- **What is known of the logical lines of a run**: `rows` are the lines they begin with, and the depths at which their
statements stand. -/
structure Reader.Drawn (r : Reader) (lines : List Line) (rows : List (Line × Nat)) : Prop where
  mem : ∀ row ∈ rows, row.1 ∈ lines
  offsets : rows.map (fun row => row.1.offset) = r.logical.map LogicalLine.offset
  depths : rows.map Prod.snd = r.sheet.preorder.map Prod.fst
  laid : Laid r.indentation (rows.map fun row => (leadingRun row.1.text, row.2))

theorem Reader.Drawn.initial (lines : List Line) : Reader.Drawn {} lines [] where
  mem _ h := by cases h
  offsets := rfl
  depths := rfl
  laid := .flat rfl fun _ h => by cases h

theorem Reader.offsets_step {compact : Bool} {r after : Reader} {line : Line} {following : List Line} {skip : Nat}
    (h : r.step compact line following = (after, .ok skip)) :
    after.logical.map LogicalLine.offset = r.logical.map LogicalLine.offset ++ [line.offset] := by
  obtain ⟨measured, indent, entered, learned, ind, joined, s, -, -, -, -, -, rfl⟩ := Reader.step_ok h
  cases s <;> simp [Reader.take]

theorem Reader.Drawn.step {compact : Bool} {r after : Reader} {lines : List Line} {rows : List (Line × Nat)}
    (hd : r.Drawn lines rows) (hr : r.Sound compact) {line : Line} {following : List Line} {skip : Nat}
    (hl : line ∈ lines) (hb : allBlank line.text = false) (h : r.step compact line following = (after, .ok skip)) :
    ∃ d, after.Drawn lines (rows ++ [(line, d)]) := by
  obtain ⟨style, n, d, joined, s, htakes, hjoins, -, -, hgrows⟩ := hr.step_takes hb h
  refine ⟨d, fun row hrow => ?_, ?_, ?_, ?_⟩
  · rcases List.mem_append.1 hrow with hrow | hrow
    · exact hd.mem row hrow
    · rw [List.mem_singleton.1 hrow]
      exact hl
  · rw [List.map_append, hd.offsets, Reader.offsets_step h]
    rfl
  · rw [List.map_append, hd.depths, hgrows.view, List.map_append]
    rfl
  · rw [List.map_append]
    exact hd.laid.take hr.aligned.pos htakes hjoins.keeps hjoins.step_eq

theorem Reader.Drawn.readLines {compact : Bool} {lines : List Line} {r : Reader}
    (h : readLines compact lines = (r, .ok ())) : ∃ rows, r.Drawn lines rows := by
  have hrun := readLines_iff.1 h
  have : r.Sound compact ∧ ∃ rows, r.Drawn lines rows := by
    refine hrun.preserves (P := fun r => r.Sound compact ∧ ∃ rows, r.Drawn lines rows) ?_
      ⟨Reader.Sound.initial compact, [], Reader.Drawn.initial lines⟩
    rintro r next line following skip hl ⟨hr, rows, hd⟩ hb hs
    obtain ⟨d, hnext⟩ := hd.step hr hl hb hs
    exact ⟨hr.step hb hs, _, hnext⟩
  exact this.2

/-- The logical line at place `k` begins with `line`, and its statement stands at depth `d`. -/
structure Reader.Puts (r : Reader) (lines : List Line) (k : Nat) (line : Line) (d : Nat) : Prop where
  mem : line ∈ lines
  offset : r.logical[k]?.map LogicalLine.offset = some line.offset
  depth : r.sheet.preorder[k]?.map Prod.fst = some d

instance (r : Reader) (lines : List Line) (k : Nat) (line : Line) (d : Nat) : Decidable (r.Puts lines k line d) :=
  decidable_of_iff (line ∈ lines ∧ r.logical[k]?.map LogicalLine.offset = some line.offset ∧
    r.sheet.preorder[k]?.map Prod.fst = some d)
    ⟨fun h => ⟨h.1, h.2.1, h.2.2⟩, fun h => ⟨h.mem, h.offset, h.depth⟩⟩

/-- No two lines of a source begin at one place. -/
theorem eq_of_offset_eq {strip : Bool} {source : List Char} {a b : Line} (ha : a ∈ prepare strip source)
    (hb : b ∈ prepare strip source) (h : a.offset = b.offset) : a = b := by
  have hnodup : ((prepare strip source).map Line.offset).Nodup :=
    (prepare_ascending strip source).1.imp fun hlt => Nat.ne_of_lt hlt
  exact List.inj_on_of_nodup_map hnodup ha hb h

theorem Reader.Drawn.puts_iff {strip : Bool} {source : List Char} {r : Reader} {rows : List (Line × Nat)}
    (hd : r.Drawn (prepare strip source) rows) {k d : Nat} {line : Line} :
    r.Puts (prepare strip source) k line d ↔ rows[k]? = some (line, d) := by
  have hoffset : r.logical[k]?.map LogicalLine.offset = rows[k]?.map fun row => row.1.offset := by
    rw [← List.getElem?_map, ← hd.offsets, List.getElem?_map]
  have hdepth : r.sheet.preorder[k]?.map Prod.fst = rows[k]?.map Prod.snd := by
    rw [← List.getElem?_map, ← hd.depths, List.getElem?_map]
  constructor
  · rintro ⟨hmem, ho, he⟩
    rw [hoffset] at ho
    rw [hdepth] at he
    obtain ⟨⟨first, e⟩, hrow, hfirst⟩ := Option.map_eq_some_iff.1 ho
    obtain rfl : e = d := by simpa [hrow] using he
    obtain rfl : first = line := eq_of_offset_eq (hd.mem _ (List.mem_of_getElem? hrow)) hmem hfirst
    exact hrow
  · intro hrow
    refine ⟨hd.mem _ (List.mem_of_getElem? hrow), ?_, ?_⟩
    · rw [hoffset, hrow]
      rfl
    · rw [hdepth, hrow]
      rfl

/-- **Lines that look alike nest alike**, with one exception.  Of two logical lines that begin with the same run, both
stand at the same depth, unless the earlier one is the first indented line of the file and begins with two tabs or more:
then it stands at depth one, and the other as deep as it has tabs. -/
theorem readLines_alike {strip compact : Bool} {source : List Char} {r : Reader}
    (h : readLines compact (prepare strip source) = (r, .ok ())) {i j d e : Nat} {a b : Line} (hij : i < j)
    (ha : r.Puts (prepare strip source) i a d) (hb : r.Puts (prepare strip source) j b e)
    (hrun : leadingRun a.text = leadingRun b.text) :
    let exception := ['\t', '\t'] <+: leadingRun a.text ∧
      ∀ k c f, k < i → r.Puts (prepare strip source) k c f → leadingRun c.text = []
    (exception → d = 1 ∧ e = (leadingRun a.text).length) ∧ (¬exception → d = e) := by
  obtain ⟨rows, hd⟩ := Reader.Drawn.readLines h
  have hi : (rows.map fun row => (leadingRun row.1.text, row.2))[i]? = some (leadingRun a.text, d) := by
    rw [List.getElem?_map, hd.puts_iff.1 ha]
    rfl
  have hj : (rows.map fun row => (leadingRun row.1.text, row.2))[j]? = some (leadingRun a.text, e) := by
    rw [List.getElem?_map, hd.puts_iff.1 hb, hrun]
    rfl
  have halike := hd.laid.alike hij hi hj
  have hfirst : FirstTabs (rows.map fun row => (leadingRun row.1.text, row.2)) i (leadingRun a.text) ↔
      ['\t', '\t'] <+: leadingRun a.text ∧
        ∀ k c f, k < i → r.Puts (prepare strip source) k c f → leadingRun c.text = [] := by
    refine and_congr_right fun _ => ⟨fun hall k c f hk hc => ?_, fun hall k row hk hrow => ?_⟩
    · exact hall k (leadingRun c.text, f) hk (by rw [List.getElem?_map, hd.puts_iff.1 hc]; rfl)
    · rw [List.getElem?_map] at hrow
      obtain ⟨⟨c, f⟩, hc, rfl⟩ := Option.map_eq_some_iff.1 hrow
      exact hall k c f hk (hd.puts_iff.2 hc)
  rw [hfirst] at halike
  exact halike

/-- Three lines that begin with two tabs: the first of them is the exception, the others stand together. -/
theorem readLines_alike_tabs :
    let lines := prepare false "a\n\t\tb\n\t\tx: y\n\t\tz: w".toList
    let r := (readLines false lines).1
    let a : Line := { text := "\t\tb".toList, offset := 2 }
    let b : Line := { text := "\t\tx: y".toList, offset := 6 }
    let c : Line := { text := "\t\tz: w".toList, offset := 13 }
    readLines false lines = (r, .ok ()) ∧ r.Puts lines 1 a 1 ∧ r.Puts lines 2 b 2 ∧ r.Puts lines 3 c 2 ∧
      leadingRun a.text = leadingRun b.text ∧ leadingRun b.text = leadingRun c.text ∧
      ((1 : Nat) = 1 ∧ 2 = (leadingRun a.text).length) ∧ (2 : Nat) = 2 := by
  intro lines r a b c
  have hflat : ∀ line ∈ lines, some 0 = some line.offset → leadingRun line.text = [] := by decide +revert
  have hruns : leadingRun a.text = ['\t', '\t'] ∧ leadingRun b.text = ['\t', '\t'] ∧
      leadingRun c.text = ['\t', '\t'] := by decide +revert
  have hok : readLines false lines = (r, .ok ()) := Prod.ext rfl (by decide +revert)
  have ha : r.Puts lines 1 a 1 := by decide +revert
  have hb : r.Puts lines 2 b 2 := by decide +revert
  have hc : r.Puts lines 3 c 2 := by decide +revert
  obtain ⟨hta, htb, htc⟩ := hruns
  have hab : leadingRun a.text = leadingRun b.text := hta.trans htb.symm
  have hbc : leadingRun b.text = leadingRun c.text := htb.trans htc.symm
  refine ⟨hok, ha, hb, hc, hab, hbc, ?_, ?_⟩
  · have hpair := readLines_alike hok (by decide) ha hb hab
    refine hpair.1 ⟨hta ▸ List.prefix_rfl, fun k d f hk hput => ?_⟩
    obtain rfl : k = 0 := by omega
    exact hflat d hput.mem hput.offset
  · have hpair := readLines_alike hok (by decide) hb hc hbc
    refine hpair.2 fun hexc => ?_
    have hfirst := hexc.2 1 _ _ (by decide) ha
    rw [hta] at hfirst
    cases hfirst

/-- It does not hold of all: two tabs make one step where they come first, and two steps from then on. -/
theorem readLines_alike_differs :
    ¬∀ (strip compact : Bool) (source : List Char) (r : Reader),
      readLines compact (prepare strip source) = (r, .ok ()) → ∀ (i j d e : Nat) (a b : Line),
        r.Puts (prepare strip source) i a d → r.Puts (prepare strip source) j b e →
          leadingRun a.text = leadingRun b.text → d = e := by
  intro h
  have hok : (readLines false (prepare false "a\n\t\tb\n\t\tc".toList)).2 = .ok () := by decide
  have hsame := h false false "a\n\t\tb\n\t\tc".toList _ (Prod.ext rfl hok) 1 2 1 2
    { text := "\t\tb".toList, offset := 2 } { text := "\t\tc".toList, offset := 6 } (by decide) (by decide) (by decide)
  cases hsame

end Offside
