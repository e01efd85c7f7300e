import Offside.Proofs.Modes

/-!
# Where comments of their own may stand

A comment on a line of its own is indented like any line, so it can be refused, or
close a block that the statement after it belongs to; the reader that does not see
it accepts both.  Where every such comment is indented like the next statement, or
like an earlier line no shallower than that and no deeper than the line before
(`remarksPlaced`), it finds its block.  For that the reader keeps in view which
indents were used so far, and at which levels they stand (`Watched`).
-/
namespace Offside

/-- The leading run of the next statement; none at the end of the file. -/
def nextRun (texts : List (List Char)) : List Char :=
  match texts.find? fun text => !allBlank (Comment.code text) with
  | none => []
  | some text => leadingRun text

/-- A comment goes with the next statement, or lies between it and the line before, at an indent used earlier; `runs`
are those of the earlier lines, the last one first. -/
def fitsBetween (runs : List (List Char)) (run next : List Char) : Bool :=
  run == next || (next.length ≤ run.length && run.length ≤ (runs.headD []).length && runs.contains run)

def placedFrom : (runs : List (List Char)) → List (List Char) → Bool
  | _, [] => true
  | runs, text :: texts =>
    if allBlank text then placedFrom runs texts
    else (!isRemark text || fitsBetween runs (leadingRun text) (nextRun texts)) &&
      placedFrom (leadingRun text :: runs) texts

/-- Every comment on a line of its own goes with what stands around it. -/
def remarksPlaced (texts : List (List Char)) : Bool := placedFrom [] texts

def firstIndented (texts : List (List Char)) : Option (List Char) :=
  texts.find? fun text => !allBlank text && !(leadingRun text).isEmpty

def twoTabs : List Char := ['\t', '\t']

/-- If any such comment is indented, the first indented line begins with one tab at most: two would be made one step,
and mean two steps from then on. -/
def tabsPlain (texts : List (List Char)) : Bool :=
  (texts.all fun text => !isRemark text || (leadingRun text).isEmpty) ||
    (firstIndented texts).all fun text => !twoTabs.isPrefixOf text

theorem placedFrom_tail {runs texts : List (List Char)} {text : List Char}
    (h : placedFrom runs (text :: texts) = true) :
    placedFrom (if allBlank text then runs else leadingRun text :: runs) texts = true := by
  rw [placedFrom] at h
  split at h
  · rename_i hb
    rw [if_pos hb]
    exact h
  · rename_i hb
    rw [if_neg hb]
    exact (Bool.and_eq_true_iff.1 h).2

theorem fitsBetween_of_placed {runs texts : List (List Char)} {text : List Char}
    (h : placedFrom runs (text :: texts) = true) (hr : isRemark text = true) (hb : allBlank text = false) :
    fitsBetween runs (leadingRun text) (nextRun texts) = true := by
  rw [placedFrom, if_neg (by simp [hb]), hr, Bool.not_true, Bool.false_or] at h
  exact (Bool.and_eq_true_iff.1 h).1

/-! ## Continued lines -/

/-- What the reader of comments learns from the line behind a joined text: as much as the other one, or the style of a
remark. -/
def LooksAhead (lines : List Line) (jc : Joined) (f c : Indentation) : Prop :=
  f = c ∨ ∃ line style n, lines[jc.lines]? = some line ∧ isRemark line.text = true ∧
    leadingRun line.text = List.replicate (n + 1) style.char ∧ f = c.see style (n + 1)

/-- **Joining does not fail for the reader of comments alone**, if it can measure the remark behind the text. -/
theorem Joins.progress {lefts : List Line} {whole : List Char} {ind c : Indentation} {indent : Nat} {jc : Joined}
    (h : Joins indent ind whole lefts c jc) : ∀ {lines : List Line} {p text : List Char},
      whole = p ++ trim (Comment.code text) → List.Forall₂ Seen lines lefts → Meeting (text :: lines.map Line.text) →
      allBlank (Comment.code text) = false → (∀ s, ind.step = some s → 0 < s) → (indent ≠ 0 → ind.style ≠ none) →
      (∀ line, lines[jc.lines]? = some line → isRemark line.text = true → ∃ style n, ind.Measures line.text style n) →
        ∃ f jf, Joins indent ind (p ++ trim text) lines f jf ∧ LooksAhead lines jc f c := by
  induction h with
  | @ends ind whole lefts hends =>
    rintro lines p text rfl hseen hmeet hcode hpos hk hremark
    by_cases hcomma : (p ++ trim text).getLast? = some ','
    · have hb := allBlank_of_code hcode
      rcases hmeet.blank_or_plain with hblank | hplain
      · exact ⟨ind, _, .ends (Or.inr hblank), Or.inl rfl⟩
      · obtain ⟨hbare, -⟩ := bare_of_comma hplain (Or.inl (getLast?_append_trim hb p ▸ hcomma))
        have hblank := hends.resolve_left fun hno => hno (by rw [hbare, hcomma])
        cases hseen with
        | nil => exact ⟨ind, _, .ends (Or.inr fun _ hl => by cases hl), Or.inl rfl⟩
        | @cons line left lines lefts hl hseen =>
          rcases blank_or_remark (hl.allBlank_left.symm.trans (hblank left rfl)) with hline | ⟨hrem, hline⟩
          · exact ⟨ind, _, .ends (Or.inr fun l h => by cases h; exact hline), Or.inl rfl⟩
          · -- a remark: the other reader stops here
            obtain ⟨style, n, hm⟩ := hremark line rfl hrem
            by_cases hi : n * ind.width style = indent
            · exact ⟨_, _, .goes hcomma hline hm hi (.ends (hmeet.tail.ends_of_remark hrem hline _)),
                Or.inl (Indentation.see_of_joined hpos hk hi hm.agrees)⟩
            · refine ⟨_, _, .stops hcomma hline hm hi, ?_⟩
              cases n with
              | zero => exact Or.inl rfl
              | succ n => exact Or.inr ⟨line, style, n, rfl, hrem, hm.run, rfl⟩
    · exact ⟨ind, _, .ends (Or.inl hcomma), Or.inl rfl⟩
  | @stops ind whole left lefts style n hcomma hleft hm hi =>
    rintro lines p text rfl (_ | ⟨hl, hseen⟩) hmeet hcode hpos hk hremark
    have hnext := hl.allBlank_left.symm.trans hleft
    obtain ⟨hplain, -⟩ := (meets_iff (allBlank_of_code hnext)).1 (List.isChain_cons_cons.1 hmeet).1
    have hmf : ind.Measures _ style n := ⟨(hl.leadingRun_left hnext).symm.trans hm.run, hm.agrees⟩
    exact ⟨_, _, .stops (comma_of_code hplain hcode hcomma) (allBlank_of_code hnext) hmf hi, Or.inl rfl⟩
  | @goes ind after whole left lefts style n more hcomma hleft hm hi hmore ih =>
    rintro lines p text rfl (_ | ⟨hl, hseen⟩) hmeet hcode hpos hk hremark
    have hnext := hl.allBlank_left.symm.trans hleft
    obtain ⟨hplain, -⟩ := (meets_iff (allBlank_of_code hnext)).1 (List.isChain_cons_cons.1 hmeet).1
    have hmf : ind.Measures _ style n := ⟨(hl.leadingRun_left hnext).symm.trans hm.run, hm.agrees⟩
    have hsee := Indentation.see_of_joined hpos hk hi hm.agrees
    have hcommaf := comma_of_code hplain hcode hcomma
    obtain ⟨hbare, -⟩ := bare_of_comma hplain (Or.inl (getLast?_append_trim (allBlank_of_code hcode) p ▸ hcommaf))
    rw [hsee, hbare] at ih
    obtain ⟨f, jf, hjf, hahead⟩ := ih (by rw [joinText, hl.trim_left]) hseen hmeet.tail hnext hpos hk hremark
    exact ⟨f, _, .goes hcommaf (allBlank_of_code hnext) hmf hi (by rw [hsee]; exact hjf), hahead⟩

theorem Seen.exists_left : ∀ {lines lefts : List Line} {line : Line}, List.Forall₂ Seen lines lefts → line ∈ lines →
    ∃ left ∈ lefts, Seen line left
  | _, _, _, .nil, hm => by cases hm
  | _, left :: _, _, .cons hl hseen, hm => by
    rcases List.mem_cons.1 hm with rfl | hm
    · exact ⟨left, List.mem_cons_self, hl⟩
    · obtain ⟨left', hleft, h⟩ := Seen.exists_left hseen hm
      exact ⟨left', List.mem_cons_of_mem left hleft, h⟩

/-- Lines of which the other reader has joined what is left have one indent. -/
theorem Joins.measures_seen {lines lefts : List Line} {text : List Char} {ind c : Indentation} {indent : Nat}
    {jc : Joined} (h : Joins indent ind text lefts c jc) (hseen : List.Forall₂ Seen lines lefts)
    (hpos : ∀ s, ind.step = some s → 0 < s) (hk : indent ≠ 0 → ind.style ≠ none) :
    ∀ t ∈ (lines.map Line.text).take jc.lines, ∃ style n, ind.Measures t style n ∧ n * ind.width style = indent := by
  intro t ht
  rw [← List.map_take] at ht
  obtain ⟨line, hm, rfl⟩ := List.mem_map.1 ht
  obtain ⟨left, hleft, hl⟩ := Seen.exists_left (List.forall₂_take jc.lines hseen) hm
  obtain ⟨hvisible, style, n, hmeasures, hw⟩ := h.measures hpos hk left hleft
  rw [hl.allBlank_left] at hvisible
  exact ⟨style, n, ⟨(hl.leadingRun_left hvisible).symm.trans hmeasures.run, hmeasures.agrees⟩, hw⟩

/-! ## The indents used so far -/

/-- The width of a character of the leading run while no step is known. -/
def Style.base (style : Style) : Nat := ({} : Indentation).width style

theorem Style.base_pos (style : Style) : 0 < style.base := by
  cases style <;> decide

namespace Indentation

/-- Nothing that was learned has changed the width of what the file is indented with. -/
def Plain (ind : Indentation) : Prop :=
  ind.step = none ∨ ind.style = some .space ∨ (ind.style = some .tab ∧ ind.step = some tabWidth)

theorem Plain.width {ind : Indentation} (h : ind.Plain) {style : Style} (ha : agrees ind.style style = true) :
    ind.width style = style.base := by
  have hs := style_of_agrees ha
  cases style with
  | space => rfl
  | tab =>
    rcases h with hn | hspace | ⟨-, htab⟩
    · rw [Indentation.width, hn]
      rfl
    · rw [hspace] at hs
      simp at hs
    · rw [Indentation.width, htab]
      rfl

theorem Plain.known {ind : Indentation} (h : ind.Plain) (hs : ind.step ≠ none) : ind.style ≠ none := by
  rcases h with hn | hspace | ⟨htab, -⟩
  · exact absurd hn hs
  · rw [hspace]
    simp
  · rw [htab]
    simp

/-- A line that begins with `run` stands at level `e`. -/
def Stands (ind : Indentation) (run : List Char) (e : Nat) : Prop :=
  ∃ style n, run = List.replicate n style.char ∧ (n ≠ 0 → ind.style = some style) ∧ n * style.base = e * ind.step.getD 0

theorem stands_nil (ind : Indentation) : ind.Stands [] 0 :=
  ⟨.space, 0, rfl, fun h => absurd rfl h, by rw [Nat.zero_mul, Nat.zero_mul]⟩

section

variable {ind known : Indentation} {run run' : List Char} {e e' : Nat}

theorem Stands.step_ne_none (h : ind.Stands run e) (hne : run ≠ []) : ind.step ≠ none := by
  obtain ⟨style, n, rfl, -, hwide⟩ := h
  intro hs
  rw [hs, Option.getD_none, Nat.mul_zero] at hwide
  rw [(Nat.mul_eq_zero.1 hwide).resolve_right (Nat.ne_of_gt style.base_pos)] at hne
  exact hne rfl

theorem Extends.stands_of_step (hx : ind.Extends known) (hs : ind.step = known.step) (h : known.Stands run e) :
    ind.Stands run e := by
  obtain ⟨style, n, hrun, hstyle, hwide⟩ := h
  refine ⟨style, n, hrun, fun hn => ?_, by rw [hs]; exact hwide⟩
  rw [hx.style (by rw [hstyle hn]; simp), hstyle hn]

theorem Stands.mono (h : known.Stands run e) (hx : ind.Extends known) : ∃ e, ind.Stands run e := by
  by_cases hr : run = []
  · exact ⟨0, hr ▸ ind.stands_nil⟩
  · exact ⟨e, hx.stands_of_step (hx.step (h.step_ne_none hr)) h⟩

theorem Stands.le_of_length (h : ind.Stands run e) (h' : ind.Stands run' e') (hpos : ∀ s, ind.step = some s → 0 < s)
    (hne : run ≠ []) (hle : run.length ≤ run'.length) : e ≤ e' := by
  obtain ⟨s, hs⟩ := Option.ne_none_iff_exists'.1 (h.step_ne_none hne)
  obtain ⟨style, n, rfl, hstyle, hwide⟩ := h
  obtain ⟨style', n', rfl, hstyle', hwide'⟩ := h'
  rw [List.length_replicate, List.length_replicate] at hle
  have hn : n ≠ 0 := fun hn => hne (by rw [hn]; rfl)
  obtain rfl : style' = style := Option.some.inj ((hstyle' (by omega)).symm.trans (hstyle hn))
  rw [hs, Option.getD_some] at hwide hwide'
  have := Nat.mul_le_mul_right style'.base hle
  rw [hwide, hwide'] at this
  exact Nat.le_of_mul_le_mul_right this (hpos s hs)

/-- What stands somewhere can be measured, -/
theorem Stands.measures {text : List Char} (h : ind.Stands (leadingRun text) e) :
    ∃ style n, ind.Measures text style n := by
  obtain ⟨style, n, hrun, hstyle, -⟩ := h
  exact ⟨style, n, hrun, fun hn => by simp [agrees, hstyle hn]⟩

/-- and if no deeper than the innermost block it is taken in. -/
theorem Stands.takes {text : List Char} {frames : Frames} (h : ind.Stands (leadingRun text) e) (hp : ind.Plain)
    (hne : leadingRun text ≠ []) (hle : e ≤ frames.depth) : ∃ style n, frames.Takes ind text style n e ∧ n ≠ 0 := by
  obtain ⟨s, hs⟩ := Option.ne_none_iff_exists'.1 (h.step_ne_none hne)
  obtain ⟨style, n, hrun, hstyle, hwide⟩ := h
  have hn : n ≠ 0 := fun hn => hne (by rw [hrun, hn]; rfl)
  have hagree : agrees ind.style style = true := by simp [agrees, hstyle hn]
  refine ⟨style, n, ⟨⟨hrun, fun _ => hagree⟩, Or.inl hle, fun h0 => absurd h0 hn, ?_⟩, hn⟩
  rw [hp.width hagree, settle_of_ne_zero _ _ hn, hs]
  rw [hs] at hwide
  exact hwide

end

/-- A line that is measured as `d` steps wide stands at level `d`. -/
theorem Measures.stands {ind : Indentation} {text : List Char} {style : Style} {n d : Nat}
    (h : ind.Measures text style n)
    (hp : ind.Plain) (hwide : n * ind.width style = d * ind.step.getD 0) : ind.Stands (leadingRun text) d := by
  by_cases hn : n = 0
  · subst hn
    rw [Nat.zero_mul] at hwide
    exact ⟨style, 0, h.run, fun hn => absurd rfl hn, by rw [Nat.zero_mul]; exact hwide⟩
  · have hw := hp.width (h.agrees hn)
    rw [hw] at hwide
    refine ⟨style, n, h.run, fun _ => (style_of_agrees (h.agrees hn)).resolve_left fun hs => ?_, hwide⟩
    -- an indented line is at least one step wide, so a step is known, and then the style is
    have hstep : ind.step ≠ none := fun hnone => by
      rw [hnone, Option.getD_none, Nat.mul_zero] at hwide
      exact absurd hwide (Nat.ne_of_gt (Nat.mul_pos (Nat.pos_of_ne_zero hn) style.base_pos))
    exact hp.known hstep hs

end Indentation

theorem firstIndented_of_flat {text : List Char} (h : allBlank text = true ∨ leadingRun text = [])
    (texts : List (List Char)) :
    firstIndented (text :: texts) = firstIndented texts := by
  rcases h with h | h <;> simp [firstIndented, h]

theorem firstIndented_of_indented {text : List Char} (hb : allBlank text = false) (hr : leadingRun text ≠ [])
    (texts : List (List Char)) : firstIndented (text :: texts) = some text := by
  simp [firstIndented, hb, hr]

/-- **What a reader knows of the lines it has read**, where comments may be indented: every indent used so far is a
level, that of the last line the depth.  `skip` more lines have been joined to it. -/
structure Watched (runs texts : List (List Char)) (skip : Nat) (ind : Indentation) (depth : Nat) : Prop where
  plain : ind.Plain
  seen : ∀ run ∈ runs, ∃ e, ind.Stands run e
  top : ind.Stands (runs.headD []) depth
  joined : ∀ text ∈ texts.take skip, ind.Stands (leadingRun text) depth
  first : ind.step = none → ∀ text, firstIndented texts = some text → twoTabs.isPrefixOf text = false

namespace Watched

variable {runs texts : List (List Char)} {text : List Char} {skip depth : Nat} {ind : Indentation}

/-- A blank line is not watched, -/
theorem blank (h : Watched runs (text :: texts) 0 ind depth) (hb : allBlank text = true) :
    Watched runs texts 0 ind depth where
  plain := h.plain
  seen := h.seen
  top := h.top
  joined _ hm := by cases hm
  first hs t ht := h.first hs t (by rw [firstIndented_of_flat (Or.inl hb), ht])

/-- and one that was joined stands where the line before it does. -/
theorem pass (h : Watched runs (text :: texts) (skip + 1) ind depth) :
    Watched (if allBlank text then runs else leadingRun text :: runs) texts skip ind depth := by
  have htext : ind.Stands (leadingRun text) depth := h.joined text List.mem_cons_self
  have hflat : ind.step = none → leadingRun text = [] := fun hs => by
    by_contra hne
    exact htext.step_ne_none hne hs
  refine ⟨h.plain, fun run hm => ?_, ?_, fun t ht => h.joined t (List.mem_cons_of_mem text ht), fun hs t ht => ?_⟩
  · split at hm
    · exact h.seen run hm
    · rcases List.mem_cons.1 hm with rfl | hm
      · exact ⟨depth, htext⟩
      · exact h.seen run hm
  · split
    · exact h.top
    · exact htext
  · exact h.first hs t (by rw [firstIndented_of_flat (Or.inr (hflat hs)), ht])

theorem drop : ∀ {texts runs : List (List Char)} {skip : Nat}, Watched runs texts skip ind depth →
    placedFrom runs texts = true →
    ∃ runs, Watched runs (texts.drop skip) 0 ind depth ∧ placedFrom runs (texts.drop skip) = true
  | _, runs, 0, h, hp => ⟨runs, h, hp⟩
  | [], runs, _ + 1, h, hp => ⟨runs, ⟨h.plain, h.seen, h.top, (fun _ hm => by cases hm), h.first⟩, hp⟩
  | text :: texts, runs, skip + 1, h, hp => by
    show ∃ runs, Watched runs (texts.drop skip) 0 ind depth ∧ placedFrom runs (texts.drop skip) = true
    exact drop h.pass (placedFrom_tail hp)

/-- The first step of all is one tab wide, or so many spaces. -/
theorem plain_settle {frames : Frames} {style : Style} {n d : Nat} (h : Watched runs (text :: texts) 0 ind depth)
    (hb : allBlank text = false) (ht : frames.Takes ind text style n d) : (ind.settle style n).Plain := by
  by_cases hn : n = 0
  · subst hn
    exact h.plain
  · have hstyle := Indentation.style_of_agrees (ht.measures.agrees hn)
    rw [Indentation.settle_of_ne_zero _ _ hn]
    cases style with
    | space => exact Or.inr (Or.inl rfl)
    | tab =>
      refine Or.inr (Or.inr ⟨rfl, ?_⟩)
      rcases h.plain with hs | hspace | ⟨-, hs⟩
      · have hrun := ht.measures.run
        have hne : leadingRun text ≠ [] := fun he => hn (by rw [he] at hrun; simpa using congrArg List.length hrun.symm)
        have hfirst := h.first hs text (firstIndented_of_indented hb hne texts)
        have hone : n = 1 := by
          match n, hn, hrun with
          | 1, _, _ => rfl
          | n + 2, _, hrun =>
            obtain ⟨rest, hrest⟩ := List.takeWhile_prefix (p := fun c => (Style.of? c).isSome) (l := text)
            rw [← hrest, show List.takeWhile _ text = leadingRun text from rfl, hrun] at hfirst
            simp [twoTabs, Style.char, List.replicate_succ, List.isPrefixOf] at hfirst
        rw [hs, hone, Indentation.width, hs]
        rfl
      · rw [hspace] at hstyle
        simp at hstyle
      · rw [hs]
        rfl

/-- **One more line**, with those that were joined to it. -/
theorem take {frames : Frames} {style : Style} {n d : Nat} {after : Indentation}
    (h : Watched runs (text :: texts) 0 ind depth)
    (hb : allBlank text = false) (ht : frames.Takes ind text style n d) (hx : after.Extends (ind.settle style n))
    (hs : after.step = (ind.settle style n).step)
    (hjoined : ∀ t ∈ texts.take skip, ∃ style' n', (ind.settle style n).Measures t style' n' ∧
      n' * (ind.settle style n).width style' = n * ind.width style) :
    Watched (leadingRun text :: runs) texts skip after d := by
  have hplain := h.plain_settle hb ht
  have hplain' : after.Plain := by
    by_cases hnone : after.step = none
    · exact Or.inl hnone
    · have hstyle := hx.style (hplain.known (hs ▸ hnone))
      unfold Indentation.Plain at hplain ⊢
      rw [hs, hstyle]
      exact hplain
  have htext : after.Stands (leadingRun text) d := by
    refine hx.stands_of_step hs ?_
    by_cases hn : n = 0
    · subst hn
      rw [ht.measures.run, ht.flat rfl]
      exact Indentation.stands_nil _
    · refine ⟨style, n, ht.measures.run, fun _ => by rw [Indentation.settle_of_ne_zero _ _ hn], ?_⟩
      rw [← ht.whole, h.plain.width (ht.measures.agrees hn)]
  refine ⟨hplain', fun run hm => ?_, htext, fun t hm => ?_, fun hnone t hfirst => ?_⟩
  · rcases List.mem_cons.1 hm with rfl | hm
    · exact ⟨d, htext⟩
    · obtain ⟨e, he⟩ := h.seen run hm
      obtain ⟨e', he'⟩ := he.mono (Indentation.extends_settle ht.measures.agrees)
      exact he'.mono hx
  · obtain ⟨style', n', hm', hw⟩ := hjoined t hm
    exact hx.stands_of_step hs (hm'.stands hplain (by rw [hw, ht.whole]))
  · have hn : n = 0 := by
      by_contra hn
      rw [hs, Indentation.settle_of_ne_zero _ _ hn] at hnone
      cases hnone
    subst hn
    exact h.first (hs ▸ hnone) t (by rw [firstIndented_of_flat (Or.inr ht.measures.run), hfirst])

theorem takes {frames : Frames} (h : Watched runs texts skip ind frames.depth) (hpos : ∀ s, ind.step = some s → 0 < s)
    (hmem : leadingRun text ∈ runs) (hne : leadingRun text ≠ [])
    (hle : (leadingRun text).length ≤ (runs.headD []).length) :
    ∃ style n e, frames.Takes ind text style n e ∧ n ≠ 0 ∧ ind.step ≠ none := by
  obtain ⟨e, he⟩ := h.seen _ hmem
  obtain ⟨style, n, htakes, hn⟩ := he.takes h.plain hne (he.le_of_length h.top hpos hne hle)
  exact ⟨style, n, e, htakes, hn, he.step_ne_none hne⟩

end Watched

end Offside
