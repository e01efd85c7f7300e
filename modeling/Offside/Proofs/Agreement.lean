import Offside.Proofs.Placement

/-!
# The two modes fail together

The reader of comments and the one that does not see them, side by side over the
same tidy lines (`Abreast`): where comments of their own stand as they should,
the first one is ready for every statement that the second one takes in
(`Prepared`), so what the second one accepts it accepts too (`Abreast.runs`).
With the other direction this gives what the two modes of compiling have in
common (`readLines_strip`).
-/
namespace Offside

theorem nextRun_of_blank {text : List Char} (h : allBlank (Comment.code text) = true) (texts : List (List Char)) :
    nextRun (text :: texts) = nextRun texts := by
  simp [nextRun, h]

theorem nextRun_of_code {text : List Char} (h : allBlank (Comment.code text) = false) (texts : List (List Char)) :
    nextRun (text :: texts) = leadingRun text := by
  simp [nextRun, h]

theorem nextRun_drop_succ : ∀ {lines lefts : List Line} {k : Nat} {left : Line}, List.Forall₂ Seen lines lefts →
    lefts[k]? = some left → allBlank left.text = true →
      nextRun ((lines.map Line.text).drop (k + 1)) = nextRun ((lines.map Line.text).drop k)
  | _, _, _, _, .nil, hat, _ => by simp at hat
  | line :: lines, _ :: _, 0, left, .cons hl _, hat, hb => by
    cases hat
    rw [hl.allBlank_left] at hb
    exact (nextRun_of_blank hb _).symm
  | _ :: lines, _ :: lefts, k + 1, left, .cons _ hseen, hat, hb => @nextRun_drop_succ lines lefts k left hseen hat hb

/-! ## The next statement -/

/-- A line that begins with `run` is taken in. -/
def Frames.Awaits (frames : Frames) (ind : Indentation) (run : List Char) : Prop :=
  ∃ style n d, ∀ text, leadingRun text = run → frames.Takes ind text style n d

theorem Frames.Awaits.measures {frames : Frames} {ind known : Indentation} {text : List Char}
    (h : frames.Awaits ind (leadingRun text)) (hx : ind.Extends known) : ∃ style n, known.Measures text style n := by
  obtain ⟨style, n, d, htakes⟩ := h
  have hm := (htakes text rfl).measures
  refine ⟨style, n, hm.run, fun hn => ?_⟩
  by_cases hs : known.style = none
  · simp [Indentation.agrees, hs]
  · rw [← hx.style hs]
    exact hm.agrees hn

/-- **The next statement is taken in** by a reader that goes on to the end, or there is none. -/
theorem Reader.Runs.awaits {lefts : List Line} {skip : Nat} {c c' : Reader} (h : Reader.Runs true skip c lefts c') :
    ∀ {lines : List Line}, List.Forall₂ Seen lines lefts → c.Sound true →
      c.frames.Awaits c.indentation (nextRun ((lines.map Line.text).drop skip)) := by
  induction h with
  | @done skip c =>
    rintro _ ⟨⟩ -
    exact ⟨.space, 0, 0, fun text h => c.frames.takes_zero c.indentation (by simpa [nextRun] using h) .space⟩
  | pass _ ih =>
    rintro _ (_ | ⟨-, hseen⟩) hc
    exact ih hseen hc
  | blank hb _ ih =>
    rintro _ (_ | ⟨hl, hseen⟩) hc
    rw [List.map_cons, List.drop_zero, nextRun_of_blank (hl.allBlank_left.symm.trans hb)]
    exact ih hseen hc
  | step hb hs _ _ =>
    rintro _ (_ | ⟨hl, hseen⟩) hc
    have hcode := hl.allBlank_left.symm.trans hb
    obtain ⟨style, n, d, -, -, htakes, -⟩ := hc.step_takes hb hs
    refine ⟨style, n, d, fun text htext => htakes.of_leadingRun ?_⟩
    rw [htext, List.map_cons, List.drop_zero, nextRun_of_code hcode, hl.leadingRun_left hcode]

/-- **One reader is ready for the statement that the other one takes in**, and then both know the same. -/
def Prepared (f c : Reader) (run : List Char) : Prop :=
  ∀ text style n d, leadingRun text = run → c.frames.Takes c.indentation text style n d →
    (∃ e, f.frames.Takes f.indentation text style n e) ∧ f.indentation.settle style n = c.indentation.settle style n

/-- Behind a remark that is indented like it, the next statement is admitted where the remark stands; -/
theorem Frames.Takes.again {frames frames' : Frames} {ind : Indentation} {text text' : List Char} {style : Style}
    {n e : Nat}
    (h : frames.Takes ind text style n e) (hdepth : frames'.depth = e) (hrun : leadingRun text' = leadingRun text)
    (hw : n ≠ 0 → (ind.settle style n).width style = ind.width style) :
    frames'.Takes (ind.settle style n) text' style n e := by
  refine ⟨⟨hrun.trans h.measures.run, fun hn => ?_⟩, Or.inl (Nat.le_of_eq hdepth.symm), h.flat, ?_⟩
  · rw [Indentation.settle_of_ne_zero _ _ hn]
    simp [Indentation.agrees]
  · rw [Indentation.settle_settle, ← h.whole]
    by_cases hn : n = 0
    · rw [hn, Nat.zero_mul, Nat.zero_mul]
    · rw [hw hn]

/-- and behind one that is indented deeper it is admitted too. -/
theorem Frames.Takes.below {frames frames' : Frames} {ind : Indentation} {text text' : List Char} {style style' : Style}
    {n n' e e' : Nat} (h : frames.Takes ind text style n e) (h' : frames.Takes ind text' style' n' e')
    (hpos : ∀ s, ind.step = some s → 0 < s) (hdepth : frames'.depth = e) (hn : n ≠ 0)
    (hstep : ind.step ≠ none) (hstyle : ind.style ≠ none) (hle : n' ≤ n) : frames'.Takes ind text' style' n' e' := by
  obtain ⟨s, hs⟩ := Option.ne_none_iff_exists'.1 hstep
  refine ⟨h'.measures, Or.inl ?_, h'.flat, h'.whole⟩
  by_cases hn' : n' = 0
  · rw [h'.flat hn']
    exact Nat.zero_le _
  · have hsame : style' = style := by
      have h1 := (Indentation.style_of_agrees (h.measures.agrees hn)).resolve_left hstyle
      have h2 := (Indentation.style_of_agrees (h'.measures.agrees hn')).resolve_left hstyle
      exact Option.some.inj (h2.symm.trans h1)
    subst hsame
    have hwhole := h.whole_of_ne_zero hn
    have hwhole' := h'.whole_of_ne_zero hn'
    rw [hs, Option.getD_some] at hwhole hwhole'
    have := Nat.mul_le_mul_right (ind.width style') hle
    rw [hwhole, hwhole'] at this
    rw [hdepth]
    exact Nat.le_of_mul_le_mul_right this (hpos s hs)

section

variable {f f' c : Reader} {text : List Char} {style : Style} {n e : Nat}

/-- A remark that is indented like the next statement does not keep a reader from being ready for it, -/
theorem Prepared.again (h : Prepared f c (leadingRun text)) (htakes : f.frames.Takes f.indentation text style n e)
    (hdepth : f'.frames.depth = e)
    (hind : f'.indentation = f.indentation.settle style n)
    (hw : n ≠ 0 → (f.indentation.settle style n).width style = f.indentation.width style) :
    Prepared f' c (leadingRun text) := by
  intro text' style' n' d htext hc
  obtain ⟨⟨e', htakes'⟩, hsettle⟩ := h text' style' n' d htext hc
  have hrun := htakes.measures.run
  rw [← htext, htakes'.measures.run] at hrun
  obtain ⟨rfl, hsame⟩ := Indentation.replicate_char_inj hrun
  rw [hind]
  by_cases hn : n' = 0
  · subst hn
    exact ⟨⟨0, f'.frames.takes_zero _ htakes'.measures.run style'⟩, hsettle⟩
  · obtain rfl := hsame hn
    rw [Indentation.settle_settle]
    exact ⟨⟨e, htakes.again hdepth htext hw⟩, hsettle⟩

/-- nor does one that is indented deeper, if nothing was learned from it. -/
theorem Prepared.below {run : List Char} (h : Prepared f c run) (htakes : f.frames.Takes f.indentation text style n e)
    (hpos : ∀ s, f.indentation.step = some s → 0 < s) (hdepth : f'.frames.depth = e)
    (hind : f'.indentation = f.indentation.settle style n) (hn : n ≠ 0) (hstep : f.indentation.step ≠ none)
    (hstyle : f.indentation.style ≠ none) (hle : run.length ≤ n) : Prepared f' c run := by
  intro text' style' n' d htext hc
  obtain ⟨⟨e', htakes'⟩, hsettle⟩ := h text' style' n' d htext hc
  rw [hind, Indentation.settle_of_known hstyle hstep htakes.measures.agrees]
  refine ⟨⟨e', htakes.below htakes' hpos hdepth hn hstep hstyle ?_⟩, hsettle⟩
  rw [← htext, htakes'.measures.run, List.length_replicate] at hle
  exact hle

end

/-- Both are ready for the same statement, if they stand at the same levels and what one of them has learned more is the
style of that statement. -/
theorem Prepared.ahead {f c : Reader} {run : List Char} (hadmits : ∀ e, c.frames.Admits e → f.frames.Admits e)
    (hf : f.indentation = c.indentation ∨ ∃ style n, run = List.replicate (n + 1) style.char ∧
      f.indentation = c.indentation.see style (n + 1)) : Prepared f c run := by
  intro text style n d hrun h
  rcases hf with heq | ⟨style', n', hnext, heq⟩
  · rw [heq]
    exact ⟨⟨d, h.measures, hadmits d h.admits, h.flat, h.whole⟩, rfl⟩
  · rw [heq]
    have hrun' := h.measures.run.symm.trans (hrun.trans hnext)
    obtain ⟨rfl, hsame⟩ := Indentation.replicate_char_inj hrun'
    obtain rfl := hsame (Nat.succ_ne_zero n')
    have hsettle := c.indentation.see_settle style (n' + 1)
    refine ⟨⟨d, ⟨h.measures.run, fun hn => ?_⟩, hadmits d h.admits, h.flat, ?_⟩, hsettle⟩
    · rw [Indentation.see_of_ne_zero _ _ hn]
      simp [Indentation.agrees]
    · rw [hsettle, Indentation.width_congr (c.indentation.see_step style (n' + 1))]
      exact h.whole

/-! ## Side by side -/

/-- **What the two readers have in common while neither has failed.** -/
structure Abreast (runs texts : List (List Char)) (skip : Nat) (f c : Reader) : Prop where
  mirrors : Mirrors f c
  next : Prepared f c (nextRun (texts.drop skip))
  known : f.indentation.step ≠ none → f.indentation.style ≠ none
  remarks : (∀ text ∈ texts, isRemark text = true → leadingRun text = []) ∨
    Watched runs texts skip f.indentation f.frames.depth

namespace Abreast

variable {runs texts : List (List Char)} {text : List Char} {skip : Nat} {f c : Reader}

theorem blank (h : Abreast runs (text :: texts) 0 f c) (hb : allBlank text = true) : Abreast runs texts 0 f c where
  mirrors := h.mirrors
  next := by
    have hnext := h.next
    rwa [List.drop_zero, nextRun_of_blank (by rw [code_of_blank hb, hb])] at hnext
  known := h.known
  remarks := h.remarks.imp (fun ha t ht => ha t (List.mem_cons_of_mem text ht)) fun hw => hw.blank hb

theorem pass (h : Abreast runs (text :: texts) (skip + 1) f c) :
    Abreast (if allBlank text then runs else leadingRun text :: runs) texts skip f c where
  mirrors := h.mirrors
  next := h.next
  known := h.known
  remarks := h.remarks.imp (fun ha t ht => ha t (List.mem_cons_of_mem text ht)) fun hw => hw.pass

theorem initial (ht : tabsPlain texts = true) : Abreast [] texts 0 {} {} where
  mirrors := Mirrors.initial
  next text style n d _ htakes := ⟨⟨d, htakes⟩, rfl⟩
  known h := absurd rfl h
  remarks := by
    rw [tabsPlain, Bool.or_eq_true] at ht
    refine ht.imp (fun ha t hm hr => ?_) fun hf => ⟨Or.inl rfl, (fun _ hm => by cases hm), Indentation.stands_nil _,
      (fun _ hm => by cases hm), fun _ t hfirst => ?_⟩
    · simpa [hr] using List.all_eq_true.1 ha t hm
    · rw [hfirst] at hf
      simpa using hf

end Abreast

theorem Statement.read_remark {text : List Char} (h : isRemark text = true) :
    ∃ comment, Statement.read false (trim text) = .ok (some (.leaf (.remark comment))) := by
  have hmain : trim (Comment.extract (trim text)).1 = [] := by
    rw [Comment.trim_extract, Comment.trim_code_trim, trim_eq_nil_iff.2 (code_of_remark h)]
  cases hc : (Comment.extract (trim text)).2 with
  | some comment =>
    refine ⟨comment, ?_⟩
    rw [Statement.read_formatted, hmain, hc]
    rfl
  | none =>
    rw [Comment.extract_eq_none_iff, Comment.code_trim_iff, ← Comment.tail_eq_nil_iff] at hc
    simp [isRemark, hc] at h

/-- **A remark finds its block**: it is indented like the next statement, or it was indented like a line before, and
then the next statement is no deeper. -/
theorem Abreast.takes_remark {runs texts : List (List Char)} {text : List Char} {f c : Reader}
    (h : Abreast runs (text :: texts) 0 f c) (hr : isRemark text = true)
    (hfits : fitsBetween runs (leadingRun text) (nextRun texts) = true)
    (hnext : c.frames.Awaits c.indentation (nextRun texts)) :
    ∃ style n e, f.frames.Takes f.indentation text style n e ∧
      (leadingRun text = nextRun texts ∨ (n ≠ 0 ∧ f.indentation.step ≠ none ∧ (nextRun texts).length ≤ n)) := by
  by_cases heq : leadingRun text = nextRun texts
  · obtain ⟨style, n, d, hc⟩ := hnext
    obtain ⟨⟨e, he⟩, -⟩ := h.next text style n d (by rw [List.drop_zero, nextRun_of_blank (code_of_remark hr), heq])
      (hc text heq)
    exact ⟨style, n, e, he, Or.inl heq⟩
  · simp only [fitsBetween, Bool.or_eq_true, beq_iff_eq, heq, false_or, Bool.and_eq_true, decide_eq_true_eq,
      List.contains_iff_mem] at hfits
    obtain ⟨⟨hle, htop⟩, hmem⟩ := hfits
    have hne : leadingRun text ≠ [] := fun hn => heq (by
      rw [hn, List.length_nil, Nat.le_zero] at hle
      rw [hn, List.eq_nil_of_length_eq_zero hle])
    have hw := h.remarks.resolve_left fun ha => hne (ha text List.mem_cons_self hr)
    obtain ⟨style, n, e, htakes, hn, hstep⟩ := hw.takes h.mirrors.formatted.aligned.pos hmem hne htop
    refine ⟨style, n, e, htakes, Or.inr ⟨hn, hstep, ?_⟩⟩
    rw [htakes.measures.run, List.length_replicate] at hle
    exact hle

theorem Abreast.width_settle {runs texts : List (List Char)} {text : List Char} {f c : Reader} {style : Style}
    {n e : Nat} (h : Abreast runs (text :: texts) 0 f c) (hr : isRemark text = true) (hb : allBlank text = false)
    (htakes : f.frames.Takes f.indentation text style n e) (hn : n ≠ 0) :
    (f.indentation.settle style n).width style = f.indentation.width style := by
  have hne : leadingRun text ≠ [] := by
    rw [htakes.measures.run]
    simpa using hn
  have hw := h.remarks.resolve_left fun ha => hne (ha text List.mem_cons_self hr)
  have hagree : Indentation.agrees (f.indentation.settle style n).style style = true := by
    rw [Indentation.settle_of_ne_zero _ _ hn]
    simp [Indentation.agrees]
  rw [(hw.plain_settle hb htakes).width hagree, hw.plain.width (htakes.measures.agrees hn)]

/-- **A remark that goes with what stands around it is read**, and the readers stay together. -/
theorem Abreast.remark {runs : List (List Char)} {line : Line} {lines : List Line} {f c : Reader}
    (h : Abreast runs (line.text :: lines.map Line.text) 0 f c) (hmeet : Meeting (line.text :: lines.map Line.text))
    (hr : isRemark line.text = true) (hb : allBlank line.text = false)
    (hfits : fitsBetween runs (leadingRun line.text) (nextRun (lines.map Line.text)) = true)
    (hnext : c.frames.Awaits c.indentation (nextRun (lines.map Line.text))) :
    ∃ f', f.step false line lines = (f', .ok 0) ∧
      Abreast (leadingRun line.text :: runs) (lines.map Line.text) 0 f' c := by
  obtain ⟨style, n, e, htakes, hcases⟩ := h.takes_remark hr hfits hnext
  obtain ⟨comment, hread⟩ := Statement.read_remark hr
  obtain ⟨f', hstep, hind, hgrows⟩ := h.mirrors.formatted.step_of_takes htakes
    (.ends (hmeet.ends_of_remark hr hb [])) hread
  have hpos := h.mirrors.formatted.aligned.pos
  have hprepared : Prepared f c (nextRun (lines.map Line.text)) := by
    have := h.next
    rwa [List.drop_zero, nextRun_of_blank (code_of_remark hr)] at this
  refine ⟨f', hstep, (h.mirrors.remark hmeet hr hb hstep).2, ?_, ?_, ?_⟩
  · rcases hcases with heq | ⟨hn, hs, hle⟩
    · rw [← heq] at hprepared
      rw [List.drop_zero, ← heq]
      exact hprepared.again htakes hgrows.depth hind (h.width_settle hr hb htakes)
    · exact hprepared.below htakes hpos hgrows.depth hind hn hs (h.known hs) hle
  · rw [hind]
    exact Indentation.settle_known h.known
  · refine h.remarks.imp (fun ha t ht => ha t (List.mem_cons_of_mem _ ht)) fun hw => ?_
    rw [hgrows.depth, hind]
    exact hw.take hb htakes (Indentation.Extends.refl _) rfl (fun t ht => by cases ht)

/-! ## A statement -/

theorem Statement.read_back {jf jc : Joined} (h : trim (Comment.code jf.text) = trim jc.text) {s : Statement}
    (hs : Statement.read true jc.text = .ok (some s)) :
    ∃ t, Statement.read false jf.text = .ok (some t) ∧ t.eraseComment = some s := by
  have he := Statement.readMain_erase (trim (Comment.extract jf.text).1) (Comment.extract jf.text).2
  rw [← Statement.read_formatted, Comment.trim_extract, h, ← Statement.read_compact, hs] at he
  cases hr : Statement.read false jf.text with
  | error cause =>
    rw [hr] at he
    cases he
  | ok t =>
    rw [hr] at he
    cases t with
    | none => cases he
    | some t =>
      refine ⟨t, rfl, ?_⟩
      simpa [Except.map] using he

/-- A remark right behind a joined text is indented like the next statement, or like an earlier line. -/
theorem Abreast.behind {runs texts : List (List Char)} {text next : List Char} {f c : Reader} {style : Style}
    {n d k : Nat} (h : Abreast runs (text :: texts) 0 f c) (hb : allBlank text = false)
    (htakes : f.frames.Takes f.indentation text style n d) (hplaced : placedFrom (leadingRun text :: runs) texts = true)
    (hjoined : ∀ t ∈ texts.take k, ∃ style' n', (f.indentation.settle style n).Measures t style' n' ∧
      n' * (f.indentation.settle style n).width style' = n * f.indentation.width style)
    (hat : texts[k]? = some next) (hr : isRemark next = true) :
    leadingRun next = nextRun (texts.drop k) ∨ ∃ e, (f.indentation.settle style n).Stands (leadingRun next) e := by
  obtain ⟨hk, rfl⟩ := List.getElem?_eq_some_iff.1 hat
  rcases h.remarks with ha | hw
  · refine Or.inr ⟨0, ?_⟩
    rw [ha _ (List.mem_cons_of_mem text (List.getElem_mem hk)) hr]
    exact Indentation.stands_nil _
  · have hwatched := hw.take hb htakes ⟨fun _ => rfl, fun _ => rfl⟩ rfl hjoined
    obtain ⟨runs', hw', hp⟩ := hwatched.drop hplaced
    rw [List.drop_eq_getElem_cons hk] at hw' hp ⊢
    rw [nextRun_of_blank (code_of_remark hr)]
    rw [placedFrom] at hp
    split at hp
    · rename_i hblank
      simp [isRemark, Comment.tail_eq_nil_iff.2 (code_of_blank hblank)] at hr
    · simp only [hr, Bool.not_true, Bool.false_or, Bool.and_eq_true, fitsBetween, Bool.or_eq_true, beq_iff_eq,
        List.contains_iff_mem] at hp
      exact hp.1.imp id fun hm => hw'.seen _ hm.2

/-- **The lines that go on with a statement are joined by both readers**; what the reader of comments learns more from
the line behind them is the style of the next statement. -/
theorem Abreast.join {runs : List (List Char)} {line : Line} {lines lefts : List Line} {f c : Reader} {framesc : Frames}
    {style : Style} {n e : Nat} {ind : Indentation} {jc : Joined}
    (h : Abreast runs (line.text :: lines.map Line.text) 0 f c) (hmeet : Meeting (line.text :: lines.map Line.text))
    (hcode : allBlank (Comment.code line.text) = false) (hseen : List.Forall₂ Seen lines lefts)
    (hplaced : placedFrom (leadingRun line.text :: runs) (lines.map Line.text) = true)
    (htakes : f.frames.Takes f.indentation line.text style n e)
    (hjc : Joins (n * f.indentation.width style) (f.indentation.settle style n) (trim (Comment.code line.text)) lefts
      ind jc)
    (hnext : framesc.Awaits ind (nextRun ((lines.map Line.text).drop jc.lines))) :
    ∃ after jf,
      Joins (n * f.indentation.width style) (f.indentation.settle style n) (trim line.text) lines after jf ∧
      (after = ind ∨ ∃ style' n', nextRun ((lines.map Line.text).drop jc.lines) = List.replicate (n' + 1) style'.char ∧
        after = ind.see style' (n' + 1)) := by
  have hpos := Indentation.settle_pos h.mirrors.formatted.aligned.pos style n
  have hknown := f.indentation.style_known style n
  have hbehind : ∀ l, lines[jc.lines]? = some l → isRemark l.text = true →
      leadingRun l.text = nextRun ((lines.map Line.text).drop jc.lines) ∨
        ∃ e, (f.indentation.settle style n).Stands (leadingRun l.text) e := fun l hat hr =>
    h.behind (allBlank_of_code hcode) htakes hplaced (hjc.measures_seen hseen hpos hknown)
      (by rw [List.getElem?_map, hat]; rfl) hr
  have hmeasured : ∀ l, lines[jc.lines]? = some l → isRemark l.text = true →
      ∃ style' n', (f.indentation.settle style n).Measures l.text style' n' := fun l hat hr => by
    rcases hbehind l hat hr with heq | ⟨e', hstands⟩
    · rw [← heq] at hnext
      exact hnext.measures hjc.keeps
    · exact hstands.measures
  obtain ⟨after, jf, hjf, hahead⟩ :=
    @Joins.progress _ _ _ _ _ _ hjc lines [] line.text rfl hseen hmeet hcode hpos hknown hmeasured
  refine ⟨after, jf, hjf, ?_⟩
  rcases hahead with heq | ⟨l, style', n', hat, hr, hrun, heq⟩
  · exact Or.inl heq
  · by_cases hs : (f.indentation.settle style n).style = none
    · rcases hbehind l hat hr with hlike | ⟨e', style'', n'', hrun', hstyle, -⟩
      · exact Or.inr ⟨style', n', by rw [← hlike, hrun], heq⟩
      · -- an earlier line with that indent would have told the style
        have hn : n'' = n' + 1 := (Indentation.replicate_char_inj (hrun'.symm.trans hrun)).1
        rw [hs] at hstyle
        cases hstyle (by omega)
    · exact Or.inl ((hjf.known hs).trans (hjc.known hs).symm)

/-- **A statement that the other reader takes is read**, and the readers stay together. -/
theorem Abreast.statement {runs : List (List Char)} {line left : Line} {lines lefts : List Line} {f c c' last : Reader}
    {skip : Nat} (h : Abreast runs (line.text :: lines.map Line.text) 0 f c) (hl : Seen line left)
    (hcode : allBlank (Comment.code line.text) = false) (hseen : List.Forall₂ Seen lines lefts)
    (hmeet : Meeting (line.text :: lines.map Line.text))
    (hplaced : placedFrom (leadingRun line.text :: runs) (lines.map Line.text) = true)
    (hs : c.step true left lefts = (c', .ok skip)) (hrun : Reader.Runs true skip c' lefts last) :
    ∃ f' skip', f.step false line lines = (f', .ok skip') ∧
      Abreast (leadingRun line.text :: runs) (lines.map Line.text) skip' f' c' ∧
        Reader.Runs true skip' c' lefts last := by
  have hb := allBlank_of_code hcode
  have hleft := hl.allBlank_left.trans hcode
  have hsame := hl.leadingRun_left hcode
  obtain ⟨style, n, d, jc, s', htakesc, hjc, hreadc, rfl, hgrowsc⟩ := h.mirrors.compact.step_takes hleft hs
  obtain ⟨⟨e, htakes⟩, hsettle⟩ := h.next line.text style n d (nextRun_of_code hcode _).symm
    (htakesc.of_leadingRun hsame.symm)
  -- both take the line in at the same level and know the same then
  have hlevel := htakes.trails h.mirrors.trails h.mirrors.formatted.aligned h.mirrors.compact.aligned
    (h.mirrors.opens e htakes.admits) hsame
  obtain rfl : e = d := hlevel.1.level_unique htakesc h.mirrors.compact.aligned.pos
  have hindent : n * c.indentation.width style = n * f.indentation.width style := by
    rw [htakesc.whole, htakes.whole, hsettle]
  rw [← hsettle, hindent, hl.trim_left] at hjc
  have hpos := Indentation.settle_pos h.mirrors.formatted.aligned.pos style n
  have hknown := f.indentation.style_known style n
  obtain ⟨after, jf, hjf, hahead⟩ := h.join hmeet hcode hseen hplaced htakes hjc
    (hrun.awaits hseen (h.mirrors.compact.step hleft hs))
  -- so the statement is the same, but for its comment
  have htogether : Together lefts jf jc := by
    obtain ⟨ind, jc', hjc', -, htogether⟩ := @Joins.mirrors _ _ _ _ _ _ hjf _ [] _ _ _ rfl htakes.whole hseen hmeet
      hcode Transparent.nil (Indentation.Trails.refl _) hpos hpos
      fun hd => ⟨htakes.step_ne_none hd, htakes.step_ne_none hd⟩
    rw [← htakes.whole] at hjc'
    rw [(hjc.unique hjc' hpos).2]
    exact htogether
  obtain ⟨s, hread, herase⟩ := Statement.read_back htogether.main hreadc
  obtain ⟨f', hstep, rfl, hgrows⟩ := h.mirrors.formatted.step_of_takes htakes hjf hread
  have hmirrors : Mirrors f' c' := by
    obtain ⟨c'', skip', hstep', hmirrors, -⟩ := h.mirrors.statement hl hcode hseen hmeet hstep
    rw [hs, Prod.mk.injEq] at hstep'
    rw [hstep'.1]
    exact hmirrors
  have hadmits : ∀ d, c'.frames.Admits d → f'.frames.Admits d := fun d hd => by
    rw [hgrowsc.admits_iff, Statement.isHeading_of_eraseComment herase] at hd
    exact hgrows.admits_iff.2 hd
  have hdrop : nextRun ((lines.map Line.text).drop jf.lines) = nextRun ((lines.map Line.text).drop jc.lines) := by
    rcases htogether.lines with heq | ⟨heq, blank, hat, hblank⟩
    · rw [heq]
    · rw [heq, nextRun_drop_succ hseen hat hblank]
  refine ⟨f', jf.lines, hstep, ⟨hmirrors, hdrop ▸ Prepared.ahead hadmits hahead, fun hne => ?_, ?_⟩, ?_⟩
  · rw [hjf.step_eq] at hne
    have hstyle := Indentation.settle_known h.known hne
    rw [hjf.keeps.style hstyle]
    exact hstyle
  · refine h.remarks.imp (fun ha t ht => ha t (List.mem_cons_of_mem _ ht)) fun hw => ?_
    rw [hgrows.depth]
    refine hw.take hb htakes hjf.keeps hjf.step_eq fun t ht => ?_
    rw [← List.map_take] at ht
    obtain ⟨l, hm, rfl⟩ := List.mem_map.1 ht
    exact (hjf.measures hpos hknown l hm).2
  · rcases htogether.lines with heq | ⟨heq, blank, hat, hblank⟩
    · rw [heq]
      exact hrun
    · rw [heq]
      exact (Reader.Runs.of_blank hblank hat).1 hrun

/-- **What the reader that sees no comments accepts the other one accepts.** -/
theorem Abreast.runs : ∀ {lines lefts : List Line} {runs : List (List Char)} {skip : Nat} {f c c' : Reader},
    List.Forall₂ Seen lines lefts → Meeting (lines.map Line.text) → placedFrom runs (lines.map Line.text) = true →
    Abreast runs (lines.map Line.text) skip f c → Reader.Runs true skip c lefts c' →
      ∃ f', Reader.Runs false skip f lines f'
  | _, _, _, _, f, _, _, .nil, _, _, _, _ => ⟨f, .done⟩
  | line :: lines, _ :: lefts, runs, _, f, c, c', .cons _ hseen, hmeet, hplaced, h, .pass hrun => by
    obtain ⟨f', hf⟩ := Abreast.runs hseen hmeet.tail (placedFrom_tail hplaced) h.pass hrun
    exact ⟨f', .pass hf⟩
  | line :: lines, left :: lefts, runs, _, f, c, c', .cons hl hseen, hmeet, hplaced, h, .blank hleft hrun => by
    have hrest := placedFrom_tail hplaced
    rcases blank_or_remark (hl.allBlank_left.symm.trans hleft) with hb | ⟨hremark, hb⟩
    · rw [if_pos hb] at hrest
      obtain ⟨f', hf⟩ := Abreast.runs hseen hmeet.tail hrest (h.blank hb) hrun
      exact ⟨f', .blank hb hf⟩
    · rw [if_neg (by simp [hb])] at hrest
      obtain ⟨next, hstep, hnext⟩ := h.remark hmeet hremark hb (fitsBetween_of_placed hplaced hremark hb)
        (hrun.awaits hseen h.mirrors.compact)
      obtain ⟨f', hf⟩ := Abreast.runs hseen hmeet.tail hrest hnext hrun
      exact ⟨f', .step hb hstep hf⟩
  | line :: lines, left :: lefts, runs, _, f, c, c', .cons hl hseen, hmeet, hplaced, h, .step hleft hs hrun => by
    have hcode := hl.allBlank_left.symm.trans hleft
    have hb := allBlank_of_code hcode
    have hrest := placedFrom_tail hplaced
    rw [if_neg (by simp [hb])] at hrest
    obtain ⟨next, skip', hstep, hnext, hrun'⟩ := h.statement hl hcode hseen hmeet hrest hs hrun
    obtain ⟨f', hf⟩ := Abreast.runs hseen hmeet.tail hrest hnext hrun'
    exact ⟨f', .step hb hstep hf⟩

/-! ## The two modes -/

/-- The lines of a source and what stripping leaves of them. -/
theorem seen_prepare {source : List Char} (h : ∀ line ∈ prepare false source, tidy line.text = true) :
    List.Forall₂ Seen (prepare false source) (prepare true source) := by
  have hclosed : ∀ line ∈ prepare false source, blocksClosed line.text = true := fun line hm => by
    have := h line hm
    simp only [tidy, Bool.and_eq_true] at this
    exact this.1.1.1
  have hbreak : ∀ line ∈ prepare false source, '\n' ∉ line.text := fun line hm => by
    refine @not_mem_of_mem_splitOn '\n' (unifyBreaks source) line.text ?_
    rw [← prepare_texts]
    exact List.mem_map_of_mem hm
  have htexts : List.Forall₂ (fun line left => strip id line.text = left.text) (prepare false source)
      (prepare true source) := by
    rw [← List.forall₂_map_right_iff, ← List.forall₂_map_left_iff, List.forall₂_eq_eq_eq]
    exact (prepare_strip_texts hclosed).symm
  have hall : List.Forall₂ (fun line left => line ∈ prepare false source ∧ strip id line.text = left.text)
      (prepare false source) (prepare true source) := (List.forall₂_and_left _ _).2 ⟨fun _ hm => hm, htexts⟩
  exact hall.imp fun line left hm => ⟨h line hm.1, by rw [← hm.2, trimRight_strip (h line hm.1) (hbreak line hm.1)]⟩

/-- **Taking the comments out first or erasing them afterwards gives the same forest**, on tidy lines: what is accepted
with its comments is accepted without them.  If the comments on lines of their own go with what stands around them, the
converse holds too, and the two modes fail together. -/
theorem readLines_strip {source : List Char} (htidy : ∀ line ∈ prepare false source, tidy line.text = true)
    (hmeet : Meeting ((prepare false source).map Line.text)) :
    (∀ f, readLines false (prepare false source) = (f, .ok ()) →
      ∃ c, readLines true (prepare true source) = (c, .ok ()) ∧ c.sheet = f.sheet.eraseComments) ∧
    (remarksPlaced ((prepare false source).map Line.text) = true →
      tabsPlain ((prepare false source).map Line.text) = true →
        ((∃ fault, (readLines false (prepare false source)).2 = .error fault) ↔
          ∃ fault, (readLines true (prepare true source)).2 = .error fault)) := by
  have hseen := seen_prepare htidy
  have hforth : ∀ f, readLines false (prepare false source) = (f, .ok ()) →
      ∃ c, readLines true (prepare true source) = (c, .ok ()) ∧ c.sheet = f.sheet.eraseComments := fun f hf => by
    obtain ⟨c, hc, hmirrors⟩ := Mirrors.runs (readLines_iff.1 hf) hseen hmeet Mirrors.initial
    exact ⟨c, readLines_iff.2 hc, Forest.preorder_injective (by rw [hmirrors.view, Forest.preorder_eraseComments])⟩
  refine ⟨hforth, fun hplaced htabs => ?_⟩
  have hback : ∀ c, readLines true (prepare true source) = (c, .ok ()) →
      ∃ f, readLines false (prepare false source) = (f, .ok ()) := fun c hc => by
    obtain ⟨f, hf⟩ := Abreast.runs hseen hmeet hplaced (Abreast.initial htabs) (readLines_iff.1 hc)
    exact ⟨f, readLines_iff.2 hf⟩
  cases hf : readLines false (prepare false source) with
  | mk f resultf =>
    cases hc : readLines true (prepare true source) with
    | mk c resultc =>
      cases resultf with
      | ok _ =>
        obtain ⟨c', hc', -⟩ := hforth f hf
        rw [hc, Prod.mk.injEq] at hc'
        simp [hc'.2]
      | error fault =>
        cases resultc with
        | error fault' => simp
        | ok _ =>
          obtain ⟨f', hf'⟩ := hback c hc
          simp [hf] at hf'

/-- Comments behind a statement, before the first one of a block and behind its last one. -/
theorem readLines_strip_block : ∃ f c,
    readLines false (prepare false "a /* y */\n  // in\n  w: \"//\" // v\n  // out\nb".toList) = (f, .ok ()) ∧
    readLines true (prepare true "a /* y */\n  // in\n  w: \"//\" // v\n  // out\nb".toList) = (c, .ok ()) ∧
    c.sheet = f.sheet.eraseComments ∧
    f.sheet.eraseComments = .block (.rule ['a'] none) (.leaf (.declare ['w'] "\"//\"".toList none) .nil)
      (.block (.rule ['b'] none) .nil .nil) ∧
    ((∃ fault, (readLines false (prepare false "a /* y */\n  // in\n  w: \"//\" // v\n  // out\nb".toList)).2 =
        .error fault) ↔
      ∃ fault, (readLines true (prepare true "a /* y */\n  // in\n  w: \"//\" // v\n  // out\nb".toList)).2 =
        .error fault) := by
  have htidy : ∀ line ∈ prepare false "a /* y */\n  // in\n  w: \"//\" // v\n  // out\nb".toList,
      tidy line.text = true := by decide
  have hok : (readLines false (prepare false "a /* y */\n  // in\n  w: \"//\" // v\n  // out\nb".toList)).2 =
      .ok () := by decide
  obtain ⟨hforth, hboth⟩ := readLines_strip htidy (by decide)
  obtain ⟨c, hc, hsheet⟩ := hforth _ (Prod.ext rfl hok)
  exact ⟨_, c, Prod.ext rfl hok, hc, hsheet, by decide, hboth (by decide) (by decide)⟩

/-- Neither half holds of every source.  A marker right behind a visible character is none to stripping, so the comment
stays in the selector; and a comment that is not indented like the block it stands in closes the block, so the line
after it is refused, where the reader that does not see the comment goes on. -/
theorem readLines_strip_differs :
    (∃ f c, readLines false (prepare false ".a//b".toList) = (f, .ok ()) ∧
      readLines true (prepare true ".a//b".toList) = (c, .ok ()) ∧ c.sheet ≠ f.sheet.eraseComments) ∧
    ((∃ fault, (readLines false (prepare false "a\n// c\n  x: y".toList)).2 = .error fault) ∧
      ¬ ∃ fault, (readLines true (prepare true "a\n// c\n  x: y".toList)).2 = .error fault) := by
  refine ⟨⟨_, _, Prod.ext rfl ?_, Prod.ext rfl ?_, ?_⟩, ⟨_, rfl⟩, ?_⟩
  · decide
  · decide
  · decide
  · rintro ⟨fault, h⟩
    cases h

end Offside
