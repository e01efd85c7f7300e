import Offside.Proofs.Gaps
import Offside.Proofs.Visible

/-!
# Squeezed text

In squeezed text no blank is out of place: none at the ends, none next to another one, none behind or before certain
characters.  Nothing else about the text changes, and every gap whose blanks are in place is still there, as one blank.
Values and parameters differ only in what the certain characters are (`Rule`), so all of it is shown once, for a rule
(`Rule.settles`).
-/
namespace Offside

theorem Spaced.gaps_map (f : Gap → List Char) (behind : Option Char) : ∀ (s : Spaced) (before : Option Char),
    (s.map f behind before).gaps behind before = (s.gaps behind before).map fun g => { g with run := f g }
  | last _, _ => rfl
  | word _ c rest, _ => by rw [map, gaps, gaps, List.map_cons, gaps_map f behind rest (some c)]

namespace Squeeze

/-- The characters that have no blank behind them, and those that have none in front. -/
structure Rule where
  behind : List Char
  before : List Char

def valueRule : Rule := { behind := [',', '(', ')'], before := [')'] }

def paramsRule : Rule := { behind := [',', '(', ':'], before := [')', ':'] }

namespace Rule

variable {r : Rule}

/-- Whether the blanks of a gap are out of place. -/
def drops (r : Rule) (g : Gap) : Bool :=
  g.before.isNone || g.behind.isNone || g.before.any r.behind.contains || g.behind.any r.before.contains

/-- What is left of a gap: one blank is left as it is, and of more there is left a space. -/
def kept (r : Rule) (g : Gap) : List Char :=
  if r.drops g then [] else if g.run.length ≤ 1 then g.run else [' ']

/-- Two neighbours of which none is a blank out of place. -/
def Apart (r : Rule) (a b : Char) : Prop :=
  (isBlank a = true → isBlank b = false ∧ b ∉ r.before) ∧ (isBlank b = true → a ∉ r.behind)

instance (a b : Char) : Decidable (r.Apart a b) := inferInstanceAs (Decidable (_ ∧ _))

/-- **Squeezing by a rule**: what it leaves alone, what form it gives to a text, and what becomes of every gap. -/
structure Settles (r : Rule) (squeeze : List Char → List Char) : Prop where
  visible : ∀ cs, visible (squeeze cs) = visible cs
  ends : ∀ cs c, (squeeze cs).head? = some c ∨ (squeeze cs).getLast? = some c → isBlank c = false
  apart : ∀ cs, (squeeze cs).IsChain r.Apart
  gaps : ∀ cs, (Spaced.of (squeeze cs)).gaps none none =
    ((Spaced.of cs).gaps none none).map fun g => { g with run := r.kept g }
  again : ∀ cs, squeeze (squeeze cs) = squeeze cs

theorem kept_blank (g : Gap) (hg : allBlank g.run = true) : allBlank (r.kept g) = true := by
  unfold kept
  split
  · rfl
  · split
    · exact hg
    · rfl

theorem kept_kept (g : Gap) : r.kept { g with run := r.kept g } = r.kept g := by
  have hdrops : ∀ run, r.drops { g with run := run } = r.drops g := fun _ => rfl
  by_cases hd : r.drops g = true
  · simp [kept, hdrops, hd]
  · by_cases hl : g.run.length ≤ 1
    · simp [kept, hdrops, hd, hl]
    · simp [kept, hdrops, hd, hl]

/-- A gap that squeezing leaves alone is empty, or one blank in its place. -/
theorem cases_of_kept {g : Gap} (h : r.kept g = g.run) :
    g.run = [] ∨ ∃ a d b, g = ⟨some a, [d], some b⟩ ∧ a ∉ r.behind ∧ b ∉ r.before := by
  obtain ⟨before, run, behind⟩ := g
  by_cases hd : r.drops ⟨before, run, behind⟩ = true
  · rw [kept, if_pos hd] at h
    exact Or.inl h.symm
  · have hlen : run.length ≤ 1 := by
      by_contra hl
      rw [kept, if_neg hd, if_neg hl] at h
      rw [show run = [' '] from h.symm] at hl
      exact hl (Nat.le_refl 1)
    cases run with
    | nil => exact Or.inl rfl
    | cons d run =>
      obtain rfl : run = [] := List.eq_nil_of_length_eq_zero (by simpa using hlen)
      cases before with
      | none => exact absurd rfl hd
      | some a =>
        cases behind with
        | none => exact absurd rfl hd
        | some b =>
          simp only [drops, Option.isNone_some, Bool.false_or, Option.any_some, Bool.or_eq_true, List.contains_iff_mem,
            not_or] at hd
          exact Or.inr ⟨a, d, b, rfl, hd.1, hd.2⟩

theorem apart_of_visible {a b : Char} (ha : isBlank a = false) (hb : isBlank b = false) : r.Apart a b := by
  constructor
  · intro h
    rw [ha] at h
    cases h
  · intro h
    rw [hb] at h
    cases h

theorem isChain_text : ∀ {s : Spaced} (before : Option Char), s.Sound → (∀ c ∈ before, isBlank c = false) →
    (∀ g ∈ s.gaps none before, r.kept g = g.run) → (before.toList ++ s.text).IsChain r.Apart
  | .last run, before, _, _, hgaps => by
    have hrun : run = [] := (hgaps ⟨before, run, none⟩ List.mem_cons_self).symm.trans (by simp [kept, drops])
    rw [Spaced.text, hrun, List.append_nil]
    cases before with
    | none => exact .nil
    | some b => exact .singleton b
  | .word run c rest, before, ⟨hblank, hc, hrest⟩, hbefore, hgaps => by
    rw [Spaced.gaps, List.forall_mem_cons] at hgaps
    have ih : (c :: rest.text).IsChain r.Apart := isChain_text (some c) hrest (by simpa using hc) hgaps.2
    rcases cases_of_kept hgaps.1 with hrun | ⟨a, d, b, hg, ha, hb⟩
    · -- two visible characters meet
      rw [Spaced.text, show run = [] from hrun, List.nil_append]
      cases before with
      | none => exact ih
      | some b => exact List.isChain_cons_cons.2 ⟨apart_of_visible (hbefore b rfl) hc, ih⟩
    · obtain ⟨rfl, rfl, hcb⟩ := Gap.mk.inj hg
      obtain rfl := Option.some.inj hcb
      have hd : isBlank d = true := allBlank_iff.1 hblank d List.mem_cons_self
      have hleft : r.Apart a d := by
        constructor
        · intro h
          rw [hbefore a rfl] at h
          cases h
        · exact fun _ => ha
      have hright : r.Apart d c := by
        constructor
        · exact fun _ => ⟨hc, hb⟩
        · intro h
          rw [hc] at h
          cases h
      exact List.isChain_cons_cons.2 ⟨hleft, List.isChain_cons_cons.2 ⟨hright, ih⟩⟩

theorem gaps_fill (cs : List Char) : (Spaced.of (fill r.kept none none cs)).gaps none none =
    ((Spaced.of cs).gaps none none).map fun g => { g with run := r.kept g } := by
  rw [fill, Spaced.of_text (Spaced.sound_map kept_blank none none (Spaced.sound_of cs)), Spaced.gaps_map]

theorem isChain_fill (cs : List Char) : (fill r.kept none none cs).IsChain r.Apart := by
  have htext := Spaced.text_of (fill r.kept none none cs)
  rw [← htext]
  refine isChain_text none (Spaced.sound_of _) (by simp) ?_
  rw [gaps_fill, List.forall_mem_map]
  exact fun g _ => kept_kept g

theorem kept_eq_keep {drop : Option Char → Option Char → Bool}
    (h : ∀ before behind, r.drops ⟨before, [], behind⟩ = drop before behind) : r.kept = keep drop := by
  funext g
  have hdrops : r.drops g = drop g.before g.behind := h g.before g.behind
  rw [kept, keep, hdrops]
  rfl

theorem settles {squeeze : List Char → List Char} {drop : Option Char → Option Char → Bool}
    (hdrops : ∀ before behind, r.drops ⟨before, [], behind⟩ = drop before behind)
    (hfill : ∀ cs, squeeze cs = fill (keep drop) none none cs)
    (hvisible : ∀ cs, Offside.visible (squeeze cs) = Offside.visible cs) (htrim : ∀ cs, trim (squeeze cs) = squeeze cs) :
    r.Settles squeeze := by
  rw [← kept_eq_keep hdrops] at hfill
  constructor
  · exact hvisible
  · rintro cs c (h | h)
    · exact head?_of_trimmed (htrim cs) h
    · exact getLast?_of_trimmed (htrim cs) h
  · intro cs
    rw [hfill]
    exact isChain_fill cs
  · intro cs
    rw [hfill]
    exact gaps_fill cs
  · intro cs
    rw [hfill, hfill, fill_fill kept_blank]
    exact congrArg (fun f => fill f none none cs) (funext kept_kept)

end Rule

theorem drops_valueRule (before behind : Option Char) :
    valueRule.drops ⟨before, [], behind⟩ = valueDrops before behind := by
  rw [Bool.eq_iff_iff]
  cases before <;> cases behind <;> simp [Rule.drops, valueDrops, atEnd, valueRule, or_assoc]

theorem drops_paramsRule (before behind : Option Char) :
    paramsRule.drops ⟨before, [], behind⟩ = paramsDrops before behind := by
  rw [Bool.eq_iff_iff]
  cases before <;> cases behind <;> simp [Rule.drops, paramsDrops, atEnd, paramsRule, or_assoc]

/-- **Squeezing brings a text into its normal form and touches nothing but blanks.** -/
theorem squeeze_settles : valueRule.Settles value ∧ paramsRule.Settles params := by
  constructor
  · exact Rule.settles drops_valueRule value_eq_fill visible_value trim_value
  · exact Rule.settles drops_paramsRule params_eq_fill visible_params fun cs => trim_trim _

example : value "\t calc( 1px  + 2px )\nsolid ,red ".toList = "calc(1px + 2px)solid ,red".toList := by decide

example : params " ( a :\tb )  and\t( c ) :d".toList = "(a:b) and\t(c):d".toList := by decide

/-- **A piece may be squeezed before it is put into a text.**  It must be trimmed: a blank at its end may be the only one
between what meets there. -/
theorem squeeze_absorbs {c : List Char} (hc : trim c = c) (u w : List Char) :
    value (u ++ value c ++ w) = value (u ++ c ++ w) ∧ params (u ++ params c ++ w) = params (u ++ c ++ w) := by
  constructor
  · exact squeeze_piece value_eq_fill hc u w
  · exact squeeze_piece params_eq_fill hc u w

/-- Both ends of the piece meet blanks, and its own characters decide on some of them. -/
theorem squeeze_absorbs_call :
    let u := "max( 1px ,\t".toList
    let c := "( a :  b )".toList
    let w := "  c )\n d".toList
    trim c = c ∧ value c = "(a : b)".toList ∧ params c = "(a:b)".toList ∧
      value (u ++ value c ++ w) = value (u ++ c ++ w) ∧ params (u ++ params c ++ w) = params (u ++ c ++ w) := by
  intro u c w
  obtain ⟨hc, hvalue, hparams⟩ : trim c = c ∧ value c = "(a : b)".toList ∧ params c = "(a:b)".toList := by decide
  exact ⟨hc, hvalue, hparams, squeeze_absorbs hc u w⟩

example : value ("a".toList ++ value " ".toList ++ "b".toList) ≠ value ("a".toList ++ " ".toList ++ "b".toList) := by decide

end Squeeze

end Offside
