import Offside.Proofs.Trim
import Offside.Text.Squeeze

/-!
# Gaps

A text is made of visible characters with gaps between them, runs of blanks that may be empty
(`Spaced`).  Each step of squeezing works gap by gap and looks at nothing but the characters on both
sides (`Gap`), so squeezing as a whole does (`Squeeze.value_eq_fill`, `Squeeze.params_eq_fill`).  What
becomes of a piece of text that begins and ends with something visible is therefore the same
wherever the piece stands (`Squeeze.fill_around`).
-/
namespace Offside

/-- A run of blanks, possibly empty, and the visible characters next to it. -/
structure Gap where
  before : Option Char
  run : List Char
  behind : Option Char
deriving DecidableEq, Repr

/-- A blank behind a closing bracket, before something that is neither another one nor a colon. -/
def Gap.loose (g : Gap) : Bool :=
  !g.run.isEmpty && g.before == some ')' && g.behind.any fun c => c != ')' && c != ':'

/-- A text, taken apart into visible characters and gaps. -/
inductive Spaced
  | last (run : List Char)
  | word (run : List Char) (c : Char) (rest : Spaced)
deriving DecidableEq, Repr

namespace Spaced

def text : Spaced → List Char
  | last run => run
  | word run c rest => run ++ c :: rest.text

def push (c : Char) : Spaced → Spaced
  | last run => last (c :: run)
  | word run d rest => word (c :: run) d rest

def of : List Char → Spaced
  | [] => last []
  | c :: cs => if isBlank c then (of cs).push c else word [] c (of cs)

/-- The gaps of a text that stands between two characters. -/
def gaps (behind : Option Char) : (before : Option Char) → Spaced → List Gap
  | before, last run => [⟨before, run, behind⟩]
  | before, word run c rest => ⟨before, run, some c⟩ :: rest.gaps behind (some c)

def map (f : Gap → List Char) (behind : Option Char) : (before : Option Char) → Spaced → Spaced
  | before, last run => last (f ⟨before, run, behind⟩)
  | before, word run c rest => word (f ⟨before, run, some c⟩) c (rest.map f behind (some c))

/-- The gaps are blank, and the characters between them are not. -/
def Sound : Spaced → Prop
  | last run => allBlank run = true
  | word run c rest => allBlank run = true ∧ isBlank c = false ∧ rest.Sound

theorem text_push (c : Char) (s : Spaced) : (s.push c).text = c :: s.text := by
  cases s <;> rfl

theorem text_of : ∀ cs : List Char, (of cs).text = cs
  | [] => rfl
  | c :: cs => by
    have ih := text_of cs
    rw [of]
    split
    · rw [text_push, ih]
    · rw [text, ih, List.nil_append]

theorem sound_push {c : Char} (hc : isBlank c = true) {s : Spaced} (h : s.Sound) : (s.push c).Sound := by
  cases s with
  | last run => exact allBlank_cons.2 ⟨hc, h⟩
  | word run d rest => exact ⟨allBlank_cons.2 ⟨hc, h.1⟩, h.2⟩

theorem sound_of : ∀ cs : List Char, (of cs).Sound
  | [] => rfl
  | c :: cs => by
    rw [of]
    split
    · rename_i hc
      exact sound_push hc (sound_of cs)
    · rename_i hc
      exact ⟨rfl, by simpa using hc, sound_of cs⟩

/-- A visible character, and a text behind it, put at the end. -/
def close : Spaced → Char → Spaced → Spaced
  | last run, d, t => word run d t
  | word run c rest, d, t => word run c (rest.close d t)

theorem close_push (c d : Char) (s t : Spaced) : (s.push c).close d t = (s.close d t).push c := by
  cases s <;> rfl

theorem of_append_cons {d : Char} (hd : isBlank d = false) (b : List Char) : ∀ a : List Char,
    of (a ++ d :: b) = (of a).close d (of b)
  | [] => by simp [of, close, hd]
  | c :: a => by
    rw [List.cons_append, of, of, of_append_cons hd b a]
    split
    · exact (close_push c d _ _).symm
    · rfl

theorem of_blank : ∀ {run : List Char}, allBlank run = true → of run = last run
  | [], _ => rfl
  | c :: run, h => by
    obtain ⟨hc, hrun⟩ := allBlank_cons.1 h
    rw [of, if_pos hc, of_blank hrun]
    rfl

/-- **A text is taken apart in one way only.** -/
theorem of_text : ∀ {s : Spaced}, s.Sound → of s.text = s
  | last _, h => of_blank h
  | word _ _ _, ⟨hrun, hc, hrest⟩ => by
    rw [text, of_append_cons hc, of_blank hrun, of_text hrest]
    rfl

section Map

variable {f h : Gap → List Char}

theorem sound_map (hf : ∀ g : Gap, allBlank g.run = true → allBlank (f g) = true) (behind : Option Char) :
    ∀ {s : Spaced} (before : Option Char), s.Sound → (s.map f behind before).Sound
  | last run, before, hs => hf ⟨before, run, behind⟩ hs
  | word run c _, before, ⟨hrun, hc, hrest⟩ => ⟨hf ⟨before, run, some c⟩ hrun, hc, sound_map hf behind (some c) hrest⟩

theorem map_map (behind : Option Char) : ∀ (s : Spaced) (before : Option Char),
    (s.map f behind before).map h behind before = s.map (fun g => h { g with run := f g }) behind before
  | last _, _ => rfl
  | word _ c rest, _ => by rw [map, map, map, map_map behind rest (some c)]

theorem map_congr (behind : Option Char) : ∀ (s : Spaced) (before : Option Char),
    (∀ g ∈ s.gaps behind before, f g = h g) → s.map f behind before = s.map h behind before
  | last _, _, hfh => by rw [map, map, hfh _ List.mem_cons_self]
  | word _ c rest, _, hfh => by
    rw [gaps, List.forall_mem_cons] at hfh
    rw [map, map, hfh.1, map_congr behind rest (some c) hfh.2]

theorem text_map_close (d : Char) (t : Spaced) (behind : Option Char) : ∀ (s : Spaced) (before : Option Char),
    ((s.close d t).map f behind before).text =
      (s.map f (some d) before).text ++ d :: (t.map f behind (some d)).text
  | last _, _ => rfl
  | word _ c rest, _ => by
    simp only [close, map, text, text_map_close d t behind rest (some c), List.append_assoc, List.cons_append]

theorem length_map_le (behind : Option Char) : ∀ (s : Spaced) (before : Option Char),
    (∀ g ∈ s.gaps behind before, (f g).length ≤ (h g).length) →
      (s.map f behind before).text.length ≤ (s.map h behind before).text.length
  | last _, _, hle => hle _ List.mem_cons_self
  | word _ c rest, _, hle => by
    rw [gaps, List.forall_mem_cons] at hle
    have ih := length_map_le behind rest (some c) hle.2
    simp only [map, text, List.length_append, List.length_cons]
    omega

theorem length_map_lt (behind : Option Char) : ∀ (s : Spaced) (before : Option Char),
    (∀ g ∈ s.gaps behind before, (f g).length ≤ (h g).length) →
      (∃ g ∈ s.gaps behind before, (f g).length < (h g).length) →
        (s.map f behind before).text.length < (s.map h behind before).text.length
  | last _, _, _, ⟨_, hg, hlt⟩ => by
    obtain rfl := List.mem_singleton.1 hg
    exact hlt
  | word _ c rest, _, hle, ⟨g, hg, hlt⟩ => by
    rw [gaps, List.forall_mem_cons] at hle
    simp only [map, text, List.length_append, List.length_cons]
    rcases List.mem_cons.1 hg with rfl | hg
    · have := length_map_le behind rest (some c) hle.2
      omega
    · have := length_map_lt behind rest (some c) hle.2 ⟨g, hg, hlt⟩
      omega

end Map

end Spaced

namespace Squeeze

open Spaced (sound_of text_of)

/-! ## The passes -/

/-- A pass over a text that does no more than fill each gap anew. -/
structure Fills (pass : List Char → List Char) (f : Gap → List Char) : Prop where
  text : ∀ {s : Spaced}, s.Sound → pass s.text = (s.map f none none).text
  blank : ∀ g : Gap, allBlank g.run = true → allBlank (f g) = true

theorem Fills.comp {pass next : List Char → List Char} {f h : Gap → List Char} (hpass : Fills pass f)
    (hnext : Fills next h) : Fills (fun cs => next (pass cs)) fun g => h { g with run := f g } where
  text hs := by rw [hpass.text hs, hnext.text (Spaced.sound_map hpass.blank none none hs), Spaced.map_map]
  blank g hg := hnext.blank _ (hpass.blank g hg)

/-- A gap that goes where `drop` says so, from what stands on both sides. -/
def dropIf (drop : Option Char → Option Char → Bool) (g : Gap) : List Char :=
  if drop g.before g.behind then [] else g.run

theorem blank_dropIf (drop : Option Char → Option Char → Bool) (g : Gap) (hg : allBlank g.run = true) :
    allBlank (dropIf drop g) = true := by
  unfold dropIf
  split
  · rfl
  · exact hg

section Pass

variable {p : Char → Bool} (hp : ∀ c, isBlank c = true → p c = false)
include hp

theorem dropAfterFrom_blank_append (rest : List Char) : ∀ {run : List Char}, allBlank run = true → ∀ after : Bool,
    dropAfterFrom p after (run ++ rest) = (if after then [] else run) ++ dropAfterFrom p after rest
  | [], _, after => by cases after <;> rfl
  | c :: run, h, after => by
    obtain ⟨hc, hrun⟩ := allBlank_cons.1 h
    rw [List.cons_append, dropAfterFrom, hc, hp c hc]
    cases after with
    | true => simpa using dropAfterFrom_blank_append rest hrun true
    | false => simpa using dropAfterFrom_blank_append rest hrun false

theorem dropAfterFrom_text (behind : Option Char) : ∀ {s : Spaced} (before : Option Char), s.Sound →
    dropAfterFrom p (before.any p) s.text = (s.map (dropIf fun b _ => b.any p) behind before).text
  | .last run, before, hs => by
    have := dropAfterFrom_blank_append hp [] hs (before.any p)
    rw [List.append_nil] at this
    rw [Spaced.text, this, dropAfterFrom, List.append_nil]
    rfl
  | .word run c rest, before, ⟨hrun, hc, hrest⟩ => by
    have hgo : dropAfterFrom p (before.any p) (c :: rest.text) = c :: dropAfterFrom p ((some c).any p) rest.text := by
      simp [dropAfterFrom, hc]
    rw [Spaced.text, dropAfterFrom_blank_append hp _ hrun, hgo, dropAfterFrom_text behind (some c) hrest]
    rfl

theorem fills_dropAfter : Fills (dropAfter p) (dropIf fun b _ => b.any p) where
  text hs := dropAfterFrom_text hp none none hs
  blank := blank_dropIf _

theorem dropBefore_of_blank : ∀ {run : List Char}, allBlank run = true → dropBefore p run = run
  | [], _ => rfl
  | c :: run, h => by
    obtain ⟨-, hrun⟩ := allBlank_cons.1 h
    have hhead : run.head?.any p = false := by
      cases run with
      | nil => rfl
      | cons d run => exact hp d (allBlank_iff.1 hrun d List.mem_cons_self)
    rw [dropBefore, dropBefore_of_blank hrun, hhead, Bool.and_false]
    rfl

theorem dropBefore_blank_append {c : Char} (hc : isBlank c = false) (rest : List Char) :
    ∀ {run : List Char}, allBlank run = true →
      dropBefore p (run ++ c :: rest) = (if p c then [] else run) ++ c :: dropBefore p rest
  | [], _ => by rw [List.nil_append, dropBefore, hc, ite_self, List.nil_append]; rfl
  | d :: run, h => by
    obtain ⟨hd, hrun⟩ := allBlank_cons.1 h
    rw [List.cons_append, dropBefore, dropBefore_blank_append hc rest hrun]
    by_cases hpc : p c = true
    · simp [hpc, hd]
    · -- the blanks stay, and so does the one in front of them
      have hhead : (run ++ c :: dropBefore p rest).head?.any p = false := by
        cases run with
        | nil => simpa using hpc
        | cons e run => exact hp e (allBlank_iff.1 hrun e List.mem_cons_self)
      simp only [if_neg hpc, hhead, Bool.and_false, Bool.false_eq_true, if_false, List.cons_append]

theorem dropBefore_text (before : Option Char) : ∀ {s : Spaced}, s.Sound →
    dropBefore p s.text = (s.map (dropIf fun _ n => n.any p) none before).text := by
  intro s hs
  induction s generalizing before with
  | last run => exact dropBefore_of_blank hp hs
  | word run c rest ih =>
    obtain ⟨hrun, hc, hrest⟩ := hs
    rw [Spaced.text, dropBefore_blank_append hp hc _ hrun, ih (some c) hrest]
    rfl

theorem fills_dropBefore : Fills (dropBefore p) (dropIf fun _ n => n.any p) where
  text hs := dropBefore_text hp none hs
  blank := blank_dropIf _

end Pass

def shrink (run : List Char) : List Char := if run.length ≤ 1 then run else [' ']

theorem shrink_shrink (run : List Char) : shrink (shrink run) = shrink run := by
  by_cases h : run.length ≤ 1
  · simp only [shrink, if_pos h]
  · simp only [shrink, if_neg h]
    rfl

theorem shrink_eq_nil {run : List Char} : shrink run = [] ↔ run = [] := by
  unfold shrink
  split
  · rfl
  · rename_i h
    constructor
    · intro hn
      cases hn
    · rintro rfl
      exact absurd (Nat.zero_le 1) h

theorem blank_shrink (g : Gap) (hg : allBlank g.run = true) : allBlank (shrink g.run) = true := by
  unfold shrink
  split
  · exact hg
  · rfl

theorem shrink_cons_cons (c d : Char) (run : List Char) : shrink (c :: d :: run) = [' '] := rfl

theorem collapseRuns_of_blank : ∀ {run : List Char}, allBlank run = true → collapseRuns run = shrink run
  | [], _ => rfl
  | [c], _ => rfl
  | c :: d :: run, h => by
    obtain ⟨hc, hrun⟩ := allBlank_cons.1 h
    have hd : isBlank d = true := allBlank_iff.1 hrun d List.mem_cons_self
    have ih := collapseRuns_of_blank hrun
    rw [collapseRuns, ih]
    cases run with
    | nil => simp [shrink, hc, hd]
    | cons e run =>
      rw [shrink_cons_cons, shrink_cons_cons]
      simp [hc, show isBlank ' ' = true from rfl]

theorem collapseRuns_cons_of_visible {c : Char} (hc : isBlank c = false) (rest : List Char) :
    collapseRuns (c :: rest) = c :: collapseRuns rest := by
  rw [collapseRuns]
  cases collapseRuns rest with
  | nil => rfl
  | cons d ds => simp [hc]

theorem collapseRuns_blank_append {c : Char} (hc : isBlank c = false) (rest : List Char) :
    ∀ {run : List Char}, allBlank run = true →
      collapseRuns (run ++ c :: rest) = shrink run ++ c :: collapseRuns rest
  | [], _ => collapseRuns_cons_of_visible hc rest
  | [d], _ => by
    rw [List.singleton_append, collapseRuns, collapseRuns_cons_of_visible hc]
    simp [hc, shrink]
  | d :: e :: run, h => by
    obtain ⟨hd, hrun⟩ := allBlank_cons.1 h
    have he : isBlank e = true := allBlank_iff.1 hrun e List.mem_cons_self
    have ih := collapseRuns_blank_append hc rest hrun
    rw [List.cons_append, collapseRuns, ih]
    cases run with
    | nil => simp [shrink, hd, he]
    | cons b run =>
      rw [shrink_cons_cons, shrink_cons_cons]
      simp [hd, show isBlank ' ' = true from rfl]

theorem collapseRuns_text (before : Option Char) {s : Spaced} (hs : s.Sound) :
    collapseRuns s.text = (s.map (fun g => shrink g.run) none before).text := by
  induction s generalizing before with
  | last run => exact collapseRuns_of_blank hs
  | word run c rest ih =>
    obtain ⟨hrun, hc, hrest⟩ := hs
    rw [Spaced.text, collapseRuns_blank_append hc _ hrun, ih (some c) hrest]
    rfl

theorem fills_collapseRuns : Fills collapseRuns fun g => shrink g.run where
  text hs := collapseRuns_text none hs
  blank := blank_shrink

def atEnd (before behind : Option Char) : Bool := before.isNone || behind.isNone

theorem trimRight_text (c : Char) {s : Spaced} (hs : s.Sound) :
    trimRight s.text = (s.map (dropIf atEnd) none (some c)).text := by
  induction s generalizing c with
  | last run => exact trimRight_append_blank hs []
  | word run d rest ih =>
    obtain ⟨hrun, hd, hrest⟩ := hs
    rw [Spaced.text, trimRight_append_cons hd, ih d hrest]
    rfl

theorem fills_trim : Fills trim (dropIf atEnd) where
  text := by
    intro s hs
    cases s with
    | last run => exact trim_eq_nil_iff.2 hs
    | word run c rest =>
      obtain ⟨hrun, hc, hrest⟩ := hs
      have hleft : trimLeft run = [] := List.dropWhile_eq_nil_iff.2 (allBlank_iff.1 hrun)
      rw [Spaced.text, trim_append_cons hc, hleft, trimRight_text c hrest]
      rfl
  blank := blank_dropIf _

/-! ## Squeezing -/

/-- A text with every gap filled anew, where it stands between two characters. -/
def fill (f : Gap → List Char) (before behind : Option Char) (cs : List Char) : List Char :=
  ((Spaced.of cs).map f behind before).text

theorem Fills.eq_fill {pass : List Char → List Char} {f : Gap → List Char} (h : Fills pass f) (cs : List Char) :
    pass cs = fill f none none cs := by
  rw [fill, ← h.text (sound_of cs), text_of]

/-- A gap goes, or is collapsed. -/
def keep (drop : Option Char → Option Char → Bool) (g : Gap) : List Char :=
  if drop g.before g.behind then [] else shrink g.run

/-- Where a value keeps no blank. -/
def valueDrops (before behind : Option Char) : Bool :=
  atEnd before behind || before.any (fun c => c == ',' || c == '(' || c == ')') || behind.any (· == ')')

/-- Where the parameters of an at-rule keep no blank. -/
def paramsDrops (before behind : Option Char) : Bool :=
  atEnd before behind || before.any (fun c => c == ',' || c == '(' || c == ':') ||
    behind.any (fun c => c == ')' || c == ':')

theorem not_of_blank {m : Char} (hm : isBlank m = false) (c : Char) (hc : isBlank c = true) : (c == m) = false := by
  rw [beq_eq_false_iff_ne]
  rintro rfl
  rw [hm] at hc
  cases hc

theorem Fills.drop {pass next : List Char → List Char} {d e : Option Char → Option Char → Bool}
    (hpass : Fills pass (dropIf d)) (hnext : Fills next (dropIf e)) :
    Fills (fun cs => next (pass cs)) (dropIf fun b n => d b n || e b n) := by
  have hrule : (fun g => dropIf e { g with run := dropIf d g }) = dropIf fun b n => d b n || e b n := by
    funext g
    cases hd : d g.before g.behind <;> cases he : e g.before g.behind <;> simp [dropIf, hd, he]
  exact hrule ▸ hpass.comp hnext

theorem Fills.collapse {pass : List Char → List Char} {d : Option Char → Option Char → Bool}
    (hpass : Fills pass (dropIf d)) : Fills (fun cs => trim (collapseRuns (pass cs))) (keep fun b n => d b n || atEnd b n) := by
  have hrule : (fun g => dropIf atEnd { g with run := shrink (dropIf d g) }) = keep fun b n => d b n || atEnd b n := by
    funext g
    cases hd : d g.before g.behind <;> cases he : atEnd g.before g.behind <;> simp [dropIf, keep, hd, he, shrink]
  exact hrule ▸ (hpass.comp fills_collapseRuns).comp fills_trim

/-- **A value keeps a gap, collapsed, in all places but those of `valueDrops`.** -/
theorem value_eq_fill (cs : List Char) : value cs = fill (keep valueDrops) none none cs := by
  have hdrops : Fills (fun cs => dropAfter (· == ')') (dropBefore (· == ')')
      (dropAfter (· == '(') (dropAfter (· == ',') cs)))) _ :=
    (((fills_dropAfter (not_of_blank rfl)).drop (fills_dropAfter (not_of_blank rfl))).drop
      (fills_dropBefore (not_of_blank rfl))).drop (fills_dropAfter (not_of_blank rfl))
  refine (hdrops.collapse.eq_fill cs).trans (congrArg (fun d => fill (keep d) none none cs) ?_)
  funext b n
  cases b <;> cases n <;> simp [valueDrops, atEnd]
  grind

/-- **The parameters of an at-rule keep a gap, collapsed, in all places but those of `paramsDrops`.** -/
theorem params_eq_fill (cs : List Char) : params cs = fill (keep paramsDrops) none none cs := by
  have hdrops : Fills (fun cs => dropAfter (· == ':') (dropBefore (· == ':')
      (dropBefore (· == ')') (dropAfter (· == '(') (dropAfter (· == ',') cs))))) _ :=
    ((((fills_dropAfter (not_of_blank rfl)).drop (fills_dropAfter (not_of_blank rfl))).drop
      (fills_dropBefore (not_of_blank rfl))).drop (fills_dropBefore (not_of_blank rfl))).drop
      (fills_dropAfter (not_of_blank rfl))
  refine (hdrops.collapse.eq_fill cs).trans (congrArg (fun d => fill (keep d) none none cs) ?_)
  funext b n
  cases b <;> cases n <;> simp [paramsDrops, atEnd]
  grind

/-! ## A piece of a text -/

section Piece

variable {f : Gap → List Char}

theorem fill_append_cons {d : Char} (hd : isBlank d = false) (a b : List Char) (before behind : Option Char) :
    fill f before behind (a ++ d :: b) = fill f before (some d) a ++ d :: fill f (some d) behind b := by
  rw [fill, Spaced.of_append_cons hd, Spaced.text_map_close]
  rfl

variable (hf : ∀ before behind, f ⟨before, [], behind⟩ = [])
include hf

theorem fill_cons {d : Char} (hd : isBlank d = false) (b : List Char) (before behind : Option Char) :
    fill f before behind (d :: b) = d :: fill f (some d) behind b := by
  have hnil : fill f before (some d) [] = [] := hf before (some d)
  have := fill_append_cons (f := f) hd [] b before behind
  rwa [hnil] at this

theorem fill_concat {e : Char} (he : isBlank e = false) (a : List Char) (before behind : Option Char) :
    fill f before behind (a ++ [e]) = fill f before (some e) a ++ [e] := by
  have hnil : fill f (some e) behind [] = [] := hf (some e) behind
  rw [fill_append_cons he, hnil]

/-- **A piece that begins and ends with something visible is filled as it is on its own**, and what is around it as if only
the piece's first and last characters were there. -/
theorem fill_around {piece : List Char} (hne : piece ≠ []) (htrim : trim piece = piece) (u w : List Char)
    (before behind : Option Char) :
    fill f before behind (u ++ piece ++ w) =
      fill f before piece.head? u ++ fill f none none piece ++ fill f piece.getLast? behind w := by
  obtain ⟨d, m, hfirst⟩ := List.exists_cons_of_ne_nil hne
  obtain ⟨a, e, hlast⟩ := (List.eq_nil_or_concat piece).resolve_left hne
  have hhead : piece.head? = some d := by rw [hfirst]; rfl
  have hend : piece.getLast? = some e := by rw [hlast, List.concat_eq_append, List.getLast?_concat]
  have hd : isBlank d = false := head?_of_trimmed htrim hhead
  have he : isBlank e = false := getLast?_of_trimmed htrim hend
  -- cut in front of the first character, then behind the last one
  have hleft : fill f before behind (u ++ (piece ++ w)) = fill f before (some d) u ++ fill f none behind (piece ++ w) := by
    rw [hfirst, List.cons_append, fill_append_cons hd, fill_cons hf hd]
  have hright : fill f none behind (piece ++ w) = fill f none none piece ++ fill f (some e) behind w := by
    rw [hlast, List.concat_eq_append, fill_concat hf he, List.append_assoc, List.singleton_append, fill_append_cons he,
      List.append_assoc, List.singleton_append]
  rw [List.append_assoc, hleft, hright, hhead, hend, List.append_assoc]

theorem head?_fill {piece : List Char} (htrim : trim piece = piece) : (fill f none none piece).head? = piece.head? := by
  cases piece with
  | nil => exact congrArg List.head? (hf none none)
  | cons d m => rw [fill_cons hf (head?_of_trimmed htrim rfl), List.head?_cons, List.head?_cons]

theorem getLast?_fill {piece : List Char} (htrim : trim piece = piece) :
    (fill f none none piece).getLast? = piece.getLast? := by
  rcases List.eq_nil_or_concat piece with rfl | ⟨a, e, rfl⟩
  · exact congrArg List.getLast? (hf none none)
  · rw [List.concat_eq_append] at htrim ⊢
    rw [fill_concat hf (getLast?_of_trimmed htrim List.getLast?_concat), List.getLast?_concat, List.getLast?_concat]

end Piece

theorem fill_fill {f h : Gap → List Char} (hf : ∀ g : Gap, allBlank g.run = true → allBlank (f g) = true)
    (before behind : Option Char) (cs : List Char) :
    fill h before behind (fill f before behind cs) = fill (fun g => h { g with run := f g }) before behind cs := by
  rw [fill, fill, Spaced.of_text (Spaced.sound_map hf behind before (sound_of cs)), Spaced.map_map]
  rfl

theorem keep_nil (drop : Option Char → Option Char → Bool) (before behind : Option Char) :
    keep drop ⟨before, [], behind⟩ = [] := ite_self _

theorem blank_keep (drop : Option Char → Option Char → Bool) (g : Gap) (hg : allBlank g.run = true) :
    allBlank (keep drop g) = true := by
  unfold keep
  split
  · rfl
  · exact blank_shrink g hg

/-! ## Squeezed twice -/

theorem keep_keep (drop : Option Char → Option Char → Bool) (g : Gap) :
    keep drop { g with run := keep drop g } = keep drop g := by
  cases hd : drop g.before g.behind <;> simp [keep, hd, shrink_shrink]

theorem fill_keep_keep (drop : Option Char → Option Char → Bool) (before behind : Option Char) (cs : List Char) :
    fill (keep drop) before behind (fill (keep drop) before behind cs) = fill (keep drop) before behind cs := by
  rw [fill_fill (blank_keep drop)]
  exact congrArg (fun f => fill f before behind cs) (funext (keep_keep drop))

theorem trim_value (cs : List Char) : trim (value cs) = value cs := trim_trim _

theorem keep_params_value (g : Gap) :
    keep paramsDrops { g with run := keep valueDrops g } = if g.loose then [] else keep paramsDrops g := by
  by_cases hp : paramsDrops g.before g.behind = true
  · simp [keep, hp]
  by_cases hv : valueDrops g.before g.behind = true
  · -- the value rules take out what the parameters would keep
    have hloose : g.loose = !g.run.isEmpty := by
      obtain ⟨before, run, behind⟩ := g
      cases before <;> cases behind <;> simp [valueDrops, paramsDrops, atEnd, Gap.loose] at hp hv ⊢
      grind
    rw [keep, keep, if_neg hp, if_pos hv, hloose, keep, if_neg hp]
    cases g.run <;> rfl
  · have hloose : g.loose = false := by
      by_contra hl
      obtain ⟨before, run, behind⟩ := g
      cases before <;> cases behind <;> simp [valueDrops, atEnd, Gap.loose] at hv hl
      grind
    simp [keep, hp, hv, hloose, shrink_shrink]

/-- The text has a gap that a value loses and the parameters of an at-rule keep. -/
def loose (cs : List Char) : Bool := ((Spaced.of cs).gaps none none).any Gap.loose

theorem params_value (cs : List Char) :
    params (value cs) = fill (fun g => if g.loose then [] else keep paramsDrops g) none none cs := by
  rw [params_eq_fill, value_eq_fill, fill_fill (blank_keep _)]
  exact congrArg (fun f => fill f none none cs) (funext keep_params_value)

theorem params_value_of_tight {cs : List Char} (h : loose cs = false) : params (value cs) = params cs := by
  rw [params_value, params_eq_fill]
  refine congrArg Spaced.text (Spaced.map_congr none _ none fun g hg => ?_)
  rw [if_neg (by simpa using List.any_eq_false.1 h g hg)]

theorem length_params_value_lt {cs : List Char} (h : loose cs = true) : (params (value cs)).length < (params cs).length := by
  obtain ⟨g, hg, hl⟩ := List.any_eq_true.1 h
  rw [params_value, params_eq_fill]
  refine Spaced.length_map_lt none _ none (fun g _ => ?_) ⟨g, hg, ?_⟩
  · split
    · exact Nat.zero_le _
    · exact Nat.le_refl _
  · have hkept : paramsDrops g.before g.behind = false ∧ g.run ≠ [] := by
      obtain ⟨before, run, behind⟩ := g
      cases before <;> cases behind <;> simp [paramsDrops, atEnd, Gap.loose] at hl ⊢
      grind
    rw [if_pos hl, keep, hkept.1]
    exact List.length_pos_iff.2 fun hn => hkept.2 (shrink_eq_nil.1 hn)

/-! ## A squeezed piece in an unsqueezed text -/

section

variable {squeeze : List Char → List Char} {drop : Option Char → Option Char → Bool}
  (hs : ∀ cs, squeeze cs = fill (keep drop) none none cs) {piece : List Char} (htrim : trim piece = piece)
include hs htrim

/-- **What stands around a piece does not see whether the piece has been squeezed**, be it by the same rules or by others. -/
theorem exists_around {inner : List Char → List Char} {dropInner : Option Char → Option Char → Bool}
    (hi : ∀ cs, inner cs = fill (keep dropInner) none none cs) (u w : List Char) :
    ∃ x y, squeeze (u ++ inner piece ++ w) = x ++ squeeze (inner piece) ++ y ∧
      squeeze (u ++ piece ++ w) = x ++ squeeze piece ++ y := by
  have hhead : (inner piece).head? = piece.head? := by rw [hi, head?_fill (keep_nil _) htrim]
  have hlast : (inner piece).getLast? = piece.getLast? := by rw [hi, getLast?_fill (keep_nil _) htrim]
  have htrim' : trim (inner piece) = inner piece := by
    refine trim_eq_self (fun c hc => ?_) fun c hc => ?_
    · exact head?_of_trimmed htrim (hhead ▸ hc)
    · exact getLast?_of_trimmed htrim (hlast ▸ hc)
  by_cases hne : piece = []
  · subst hne
    have hnil : squeeze [] = [] := by rw [hs]; exact keep_nil drop none none
    have hnil' : inner [] = [] := by rw [hi]; exact keep_nil dropInner none none
    refine ⟨squeeze (u ++ w), [], ?_, ?_⟩
    · rw [hnil', hnil, List.append_nil, List.append_nil, List.append_nil]
    · rw [hnil, List.append_nil, List.append_nil, List.append_nil]
  · have hne' : inner piece ≠ [] := fun hn => hne (List.head?_eq_none_iff.1 (by rw [← hhead, hn]; rfl))
    refine ⟨fill (keep drop) none piece.head? u, fill (keep drop) piece.getLast? none w, ?_, ?_⟩
    · rw [hs, hs, fill_around (keep_nil _) hne' htrim', hhead, hlast]
    · rw [hs, hs, fill_around (keep_nil _) hne htrim]

theorem squeeze_piece (u w : List Char) : squeeze (u ++ squeeze piece ++ w) = squeeze (u ++ piece ++ w) := by
  obtain ⟨x, y, hsqueezed, hplain⟩ := exists_around hs htrim hs u w
  rw [hsqueezed, hplain, hs (squeeze piece), hs piece, fill_keep_keep]

end

theorem params_piece {piece : List Char} (htrim : trim piece = piece) (htight : loose piece = false) (u w : List Char) :
    params (u ++ value piece ++ w) = params (u ++ piece ++ w) := by
  obtain ⟨x, y, hsqueezed, hplain⟩ := exists_around params_eq_fill htrim value_eq_fill u w
  rw [hsqueezed, hplain, params_value_of_tight htight]

theorem length_params_piece {piece : List Char} (htrim : trim piece = piece) (hloose : loose piece = true)
    (u w : List Char) : (params (u ++ value piece ++ w)).length < (params (u ++ piece ++ w)).length := by
  obtain ⟨x, y, hsqueezed, hplain⟩ := exists_around params_eq_fill htrim value_eq_fill u w
  have := length_params_value_lt hloose
  rw [hsqueezed, hplain]
  simp only [List.length_append]
  omega

example : loose "(a) and (b)".toList = true ∧ loose "(a :b) ,c".toList = true ∧ loose "(a) : b )".toList = false := by decide

end Squeeze

end Offside
