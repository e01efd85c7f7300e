import Offside.Proofs.Refusal

/-!
# One style of indentation

The style is learned from the first line that is indented, be it the first line of a statement
or one that is looked at to continue it, and every line that is not blank is held against it
(`Reader.Runs.fits`).  So a file that is read has leading runs of one style only.
-/
namespace Offside

namespace Indentation

/-- The leading run is made of the style that is known.  While none is known, it is empty. -/
def Fits (ind : Indentation) (text : List Char) : Prop := ∀ c ∈ leadingRun text, ind.style.map Style.char = some c

theorem Measures.fits {ind : Indentation} {text : List Char} {style : Style} {n : Nat} (h : ind.Measures text style n)
    (hk : n ≠ 0 → ind.style ≠ none) : ind.Fits text := by
  intro c hc
  rw [h.run] at hc
  obtain ⟨hn, rfl⟩ := List.mem_replicate.1 hc
  rw [(style_of_agrees (h.agrees hn)).resolve_left (hk hn)]
  rfl

theorem Measures.fits_settle {ind : Indentation} {text : List Char} {style : Style} {n : Nat}
    (h : ind.Measures text style n) : (ind.settle style n).Fits text := by
  intro c hc
  rw [h.run] at hc
  obtain ⟨hn, rfl⟩ := List.mem_replicate.1 hc
  rw [settle_of_ne_zero _ _ hn]
  rfl

/-- What fits goes on to fit, since a style that is known stays. -/
theorem Fits.mono {ind known : Indentation} {text : List Char} (h : known.Fits text) (hx : ind.Extends known) :
    ind.Fits text := by
  intro c hc
  have hknown := h c hc
  have hsome : known.style ≠ none := fun hn => by simp [hn] at hknown
  rw [hx.style hsome]
  exact hknown

end Indentation

/-- The lines that are joined fit what is known when joining begins: they are as wide as the first line, so that one was
indented if they are. -/
theorem Joins.fits {ind after : Indentation} {style : Style} {n : Nat} {text : List Char} {lines : List Line}
    {joined : Joined} (h : Joins (n * ind.width style) (ind.settle style n) text lines after joined)
    (hpos : ∀ s, ind.step = some s → 0 < s) :
    ∀ line ∈ lines.take joined.lines, (ind.settle style n).Fits line.text := by
  intro line hl
  have hsettled := Indentation.settle_pos hpos style n
  obtain ⟨-, found, m, hm, hi⟩ := h.measures hsettled (ind.style_known style n) line hl
  refine hm.fits fun hne => ind.style_known style n ?_
  rw [← hi]
  exact Nat.ne_of_gt (Nat.mul_pos (Nat.pos_of_ne_zero hne) (Indentation.width_pos hsettled found))

/-- **Every line that is read fits what is known in the end.** -/
theorem Reader.Runs.fits {compact : Bool} {skip : Nat} {r after : Reader} {lines : List Line}
    (h : Reader.Runs compact skip r lines after) (hr : r.Sound compact) :
    after.indentation.Extends r.indentation ∧
      ∀ line ∈ lines.drop skip, allBlank line.text = false → after.indentation.Fits line.text := by
  induction h with
  | done => exact ⟨.refl _, by simp⟩
  | pass _ ih => exact ih hr
  | @blank r after line lines hb _ ih =>
    obtain ⟨hx, hfits⟩ := ih hr
    refine ⟨hx, fun l hl hv => ?_⟩
    rcases List.mem_cons.1 hl with rfl | hl
    · rw [hb] at hv
      cases hv
    · exact hfits l hl hv
  | @step skip r next after line lines hb hs _ ih =>
    obtain ⟨style, n, d, joined, s, htakes, hjoins, -, rfl, -⟩ := hr.step_takes hb hs
    obtain ⟨hx, hfits⟩ := ih (hr.step hb hs)
    have hsettled : after.indentation.Extends (r.indentation.settle style n) := hx.trans hjoins.keeps
    refine ⟨hsettled.trans (Indentation.extends_settle htakes.measures.agrees), fun l hl hv => ?_⟩
    rcases List.mem_cons.1 hl with rfl | hl
    · exact htakes.measures.fits_settle.mono hsettled
    · -- a line behind the first one was joined to it, or is read later
      rw [← List.take_append_drop joined.lines lines] at hl
      rcases List.mem_append.1 hl with hl | hl
      · exact (hjoins.fits hr.aligned.pos l hl).mono hsettled
      · exact hfits l hl hv

theorem readLines_fits {compact : Bool} {lines : List Line} {r : Reader} (h : readLines compact lines = (r, .ok ())) :
    ∃ style : Style, ∀ line ∈ lines, allBlank line.text = false → ∀ c ∈ leadingRun line.text, c = style.char := by
  obtain ⟨-, hfits⟩ := (readLines_iff.1 h).fits (Reader.Sound.initial compact)
  refine ⟨r.indentation.style.getD .space, fun line hl hv c hc => ?_⟩
  have hknown := hfits line hl hv c hc
  cases hs : r.indentation.style with
  | none => simp [hs] at hknown
  | some style => simpa [hs] using hknown.symm

/-- **Tabs and spaces are never mixed.**  The lines of a file that is read, blank ones aside, begin all with spaces or
all with tabs; a file that has a space in one leading run and a tab in another is refused. -/
theorem readLines_one_style (compact : Bool) (lines : List Line) :
    (∀ r, readLines compact lines = (r, .ok ()) → ∃ style : Style, ∀ line ∈ lines, allBlank line.text = false →
      ∀ c ∈ leadingRun line.text, c = style.char) ∧
    ∀ a ∈ lines, ∀ b ∈ lines, allBlank a.text = false → allBlank b.text = false → ' ' ∈ leadingRun a.text →
      '\t' ∈ leadingRun b.text →
        ∃ r fault, readLines compact lines = (r, .error fault) ∧ fault.cause ∈ Cause.arising := by
  refine ⟨fun r h => readLines_fits h, fun a ha b hb hva hvb hspace htab => ?_⟩
  cases h : readLines compact lines with
  | mk r result =>
    cases result with
    | error fault => exact ⟨r, fault, rfl, readLines_arises h⟩
    | ok _ =>
      obtain ⟨style, hall⟩ := readLines_fits h
      have hsame : ' ' = '\t' := (hall a ha hva _ hspace).trans (hall b hb hvb _ htab).symm
      cases hsame

/-- A file of tabs with a blank line of spaces; and one whose style is learned where a continuation is looked for. -/
theorem readLines_one_style_ahead :
    let tabs := prepare false "a\n\tb,\n\tc\n  \n".toList
    let mixed := prepare false "a,\n  b\nc\n\td".toList
    (∃ r, readLines false tabs = (r, .ok ()) ∧ ∃ style : Style, ∀ line ∈ tabs, allBlank line.text = false →
      ∀ c ∈ leadingRun line.text, c = style.char) ∧
    ∃ r fault, readLines false mixed = (r, .error fault) ∧ fault.cause ∈ Cause.arising := by
  intro tabs mixed
  have hok : (readLines false tabs).2 = .ok () := by decide
  have hread : readLines false tabs = ((readLines false tabs).1, .ok ()) := Prod.ext rfl hok
  refine ⟨⟨_, hread, (readLines_one_style false tabs).1 _ hread⟩, ?_⟩
  exact (readLines_one_style false mixed).2 ⟨"  b".toList, 3⟩ (by decide) ⟨"\td".toList, 9⟩ (by decide) (by decide)
    (by decide) (by decide) (by decide)

end Offside
