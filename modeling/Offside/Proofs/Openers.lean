import Offside.Proofs.Strings

/-!
# Comment openers

A scan that stops at the first `/*` outside quotes (`Scan.run`), or at the first of all if quotes are not
to count.  What happens to a text on its way out changes nothing that the scan sees: squeezing and
trimming only touch blanks, which it does not tell apart, and a selector is cut outside quotes only.
Replacing references is another matter: a constant can bring a `/` and a `*` together, or close a quote.
-/
namespace Offside

/-- What the scan remembers. -/
inductive Scan
  | outside
  /-- Outside quotes, right behind a slash. -/
  | slash
  | single
  | double
deriving DecidableEq, Repr

namespace Scan

/-- The open quote. -/
def quote? : Scan → Option Char
  | outside => none
  | slash => none
  | single => some '\''
  | double => some '"'

/-- The state behind a character that means nothing to the scan. -/
def calm : Scan → Scan
  | slash => outside
  | s => s

/-- The state behind a character outside quotes.  `quotes` says that quotes count. -/
def enter (quotes : Bool) (c : Char) : Scan :=
  if quotes && c == '\'' then single
  else if quotes && c == '"' then double
  else if c == '/' then slash
  else outside

/-- One character; `none` at the end of an opener. -/
def step (quotes : Bool) : Scan → Char → Option Scan
  | single, c => some (if c == '\'' then outside else single)
  | double, c => some (if c == '"' then outside else double)
  | outside, c => some (enter quotes c)
  | slash, c => if c == '*' then none else some (enter quotes c)

def run (quotes : Bool) : Scan → List Char → Option Scan
  | s, [] => some s
  | s, c :: cs => (s.step quotes c).bind fun t => run quotes t cs

/-- Where the scan is when what follows means nothing to it. -/
def finish (quotes : Bool) (s : Scan) (cs : List Char) : Option Scan := (run quotes s cs).map calm

/-- A character that means nothing to the scan. -/
def quiet (c : Char) : Bool := c != '\'' && c != '"' && c != '/' && c != '*'

variable {quotes : Bool}

@[simp] theorem calm_calm (s : Scan) : s.calm.calm = s.calm := by cases s <;> rfl

@[simp] theorem quote?_calm (s : Scan) : s.calm.quote? = s.quote? := by cases s <;> rfl

theorem calm_eq_outside {s : Scan} : s.calm = outside ↔ s.quote? = none := by cases s <;> decide

theorem calm_of_quote {s : Scan} (h : s.quote? ≠ none) : s.calm = s := by
  cases s with
  | slash => exact absurd rfl h
  | _ => rfl

theorem eq_outside {s : Scan} (h : s.quote? = none) (hs : s ≠ slash) : s = outside := by
  cases s with
  | outside => rfl
  | slash => exact absurd rfl hs
  | _ => cases h

theorem step_quiet {c : Char} (hc : quiet c = true) (s : Scan) : s.step quotes c = some s.calm := by
  simp only [quiet, Bool.and_eq_true, bne_iff_ne] at hc
  cases s <;> simp [step, enter, calm, hc]

theorem step_of_ne_slash {s : Scan} {c : Char} (hc : c ≠ '*') : s.step quotes c = s.calm.step quotes c := by
  cases s <;> simp [step, calm, hc]

theorem quiet_of_not {p : Char → Bool} (hp : p '\'' = false ∧ p '"' = false ∧ p '/' = false ∧ p '*' = false) {c : Char}
    (h : p c = true) : quiet c = true := by
  simp only [quiet, Bool.and_eq_true, bne_iff_ne]
  refine ⟨⟨⟨?_, ?_⟩, ?_⟩, ?_⟩ <;> rintro rfl <;> simp [hp] at h

theorem quiet_of_blank {c : Char} (h : isBlank c = true) : quiet c = true := quiet_of_not (by decide) h

theorem quiet_of_nameChar {c : Char} (h : isNameChar c = true) : quiet c = true := quiet_of_not (by decide) h

@[simp] theorem run_nil (s : Scan) : run quotes s [] = some s := rfl

theorem run_append (b : List Char) : ∀ (a : List Char) (s : Scan),
    run quotes s (a ++ b) = (run quotes s a).bind fun t => run quotes t b
  | [], _ => rfl
  | c :: a, s => by
    rw [List.cons_append, run, run, Option.bind_assoc]
    congr 1
    funext t
    exact run_append b a t

theorem run_cons_quiet {c : Char} (hc : quiet c = true) (s : Scan) (cs : List Char) :
    run quotes s (c :: cs) = run quotes s.calm cs := by
  rw [run, step_quiet hc]
  rfl

theorem run_quiet : ∀ {cs : List Char}, (∀ c ∈ cs, quiet c = true) → ∀ s : Scan,
    run quotes s cs = some (if cs = [] then s else s.calm)
  | [], _, _ => rfl
  | c :: cs, h, s => by
    rw [List.forall_mem_cons] at h
    rw [run_cons_quiet h.1, run_quiet h.2]
    split <;> simp

/-- What a quiet character follows. -/
theorem run_append_quiet {c : Char} (hc : quiet c = true) (s : Scan) (a b : List Char) :
    run quotes s (a ++ c :: b) = (finish quotes s a).bind fun t => run quotes t b := by
  rw [run_append, finish]
  cases run quotes s a with
  | none => rfl
  | some t => simp [run_cons_quiet hc]

theorem finish_append_quiet {b : List Char} (hb : ∀ c ∈ b, quiet c = true) (s : Scan) (a : List Char) :
    finish quotes s (a ++ b) = finish quotes s a := by
  unfold finish
  rw [run_append]
  cases run quotes s a with
  | none => rfl
  | some t =>
    simp only [Option.bind_some, run_quiet hb, Option.map_some]
    split <;> simp

theorem run_quiet_append {a : List Char} (ha : ∀ c ∈ a, quiet c = true) {s : Scan} (hs : s.calm = s) (b : List Char) :
    run quotes s (a ++ b) = run quotes s b := by
  rw [run_append, run_quiet ha, hs, ite_self]
  rfl

/-! ## Quotes -/

theorem quote?_enter (c : Char) : (enter quotes c).quote? = if quotes && Nesting.isQuote c then some c else none := by
  by_cases hs : c = '\''
  · subst hs
    cases quotes <;> rfl
  · by_cases hd : c = '"'
    · subst hd
      cases quotes <;> rfl
    · have hnone : Nesting.isQuote c = false := by simp [Nesting.isQuote, hs, hd]
      rw [hnone, Bool.and_false]
      by_cases hc : c = '/' <;> simp [enter, hs, hd, hc, quote?]

/-- Without quotes that count the scan stays outside, and with them it has the quote that is open. -/
theorem quote?_step {s t : Scan} {c : Char} (h : s.step quotes c = some t) :
    (quotes = true → t.quote? = Comment.quoteStep s.quote? false c) ∧ (quotes = false → s.quote? = none → t.quote? = none) := by
  cases s with
  | single =>
    obtain rfl := Option.some.inj h
    by_cases hc : c = '\'' <;> simp [hc, quote?, Comment.quoteStep]
  | double =>
    obtain rfl := Option.some.inj h
    by_cases hc : c = '"' <;> simp [hc, quote?, Comment.quoteStep]
  | outside =>
    obtain rfl := Option.some.inj h
    rw [quote?_enter]
    constructor <;> rintro rfl <;> simp [quote?, Comment.quoteStep]
  | slash =>
    rw [step] at h
    split at h
    · cases h
    · obtain rfl := Option.some.inj h
      rw [quote?_enter]
      constructor <;> rintro rfl <;> simp [quote?, Comment.quoteStep]

theorem quote?_run : ∀ {cs : List Char} {s t : Scan}, run quotes s cs = some t →
    (quotes = true → t.quote? = openQuote s.quote? cs) ∧ (quotes = false → s.quote? = none → t.quote? = none)
  | [], s, t, h => by
    obtain rfl := Option.some.inj h
    exact ⟨fun _ => rfl, fun _ hs => hs⟩
  | c :: cs, s, t, h => by
    obtain ⟨u, hu, hrun⟩ := Option.bind_eq_some_iff.1 h
    obtain ⟨h1, h2⟩ := quote?_step hu
    obtain ⟨ih1, ih2⟩ := quote?_run hrun
    refine ⟨fun hq => ?_, fun hq hs => ih2 hq (h2 hq hs)⟩
    rw [ih1 hq, h1 hq]
    rfl

theorem step_eq_slash {s : Scan} {c : Char} : s.step quotes c = some slash ↔ s.quote? = none ∧ c = '/' := by
  have henter : enter quotes c = slash ↔ c = '/' := by
    constructor
    · intro h
      unfold enter at h
      split at h
      · cases h
      · split at h
        · cases h
        · split at h
          · rename_i hc
            exact beq_iff_eq.1 hc
          · cases h
    · rintro rfl
      cases quotes <;> rfl
  cases s with
  | single => by_cases hc : c = '\'' <;> simp [step, quote?, hc]
  | double => by_cases hc : c = '"' <;> simp [step, quote?, hc]
  | outside => simp [step, quote?, henter]
  | slash =>
    by_cases hc : c = '*'
    · simp [step, hc]
    · simp [step, quote?, hc, henter]

/-- A slash has just been read. -/
theorem getLast?_of_slash : ∀ {cs : List Char} {s : Scan}, run quotes s cs = some slash →
    (cs = [] ∧ s = slash) ∨ cs.getLast? = some '/'
  | [], s, h => Or.inl ⟨rfl, Option.some.inj h⟩
  | c :: cs, s, h => by
    obtain ⟨u, hu, hrun⟩ := Option.bind_eq_some_iff.1 h
    right
    rcases getLast?_of_slash hrun with ⟨rfl, rfl⟩ | hlast
    · rw [(step_eq_slash.1 hu).2]
      rfl
    · cases cs with
      | nil => cases hlast
      | cons d cs => rwa [List.getLast?_cons_cons]

theorem step_eq_none {s : Scan} {c : Char} : s.step quotes c = none ↔ s = slash ∧ c = '*' := by
  cases s with
  | slash => by_cases hc : c = '*' <;> simp [step, hc]
  | outside => simp [step]
  | single => simp [step]
  | double => simp [step]

/-- **Where the scan stops**: at an opener outside quotes, or at the first of all if quotes do not count. -/
theorem run_eq_none_iff : ∀ {cs : List Char} {s : Scan}, (quotes = false → s.quote? = none) →
    (run quotes s cs = none ↔ (s = slash ∧ cs.head? = some '*') ∨
      ∃ a b, cs = a ++ '/' :: '*' :: b ∧ (quotes = true → openQuote s.quote? a = none))
  | [], s, _ => by simp
  | c :: cs, s, hs => by
    cases hstep : s.step quotes c with
    | none =>
      obtain ⟨rfl, rfl⟩ := step_eq_none.1 hstep
      rw [run, hstep]
      simp
    | some t =>
      obtain ⟨hquote, hnone⟩ := quote?_step hstep
      have hopen : ∀ a, quotes = true → openQuote s.quote? (c :: a) = openQuote t.quote? a := by
        intro a hq
        rw [hquote hq]
        rfl
      rw [run, hstep, Option.bind_some, run_eq_none_iff fun hq => hnone hq (hs hq)]
      constructor
      · rintro (⟨rfl, hhead⟩ | ⟨a, b, rfl, ha⟩)
        · obtain ⟨hout, rfl⟩ := step_eq_slash.1 hstep
          obtain ⟨b, rfl⟩ := List.head?_eq_some_iff.1 hhead
          exact Or.inr ⟨[], b, rfl, fun _ => hout⟩
        · exact Or.inr ⟨c :: a, b, rfl, fun hq => by rw [hopen a hq, ha hq]⟩
      · rintro (⟨rfl, hhead⟩ | ⟨a, b, he, ha⟩)
        · rw [step_eq_none.2 ⟨rfl, Option.some.inj hhead⟩] at hstep
          cases hstep
        · cases a with
          | nil =>
            obtain ⟨rfl, rfl⟩ := List.cons.inj he
            have hout : s.quote? = none := by
              cases quotes with
              | true => exact ha rfl
              | false => exact hs rfl
            rw [step_eq_slash.2 ⟨hout, rfl⟩] at hstep
            exact Or.inl ⟨(Option.some.inj hstep).symm, rfl⟩
          | cons d a =>
            obtain ⟨rfl, rfl⟩ := List.cons.inj he
            exact Or.inr ⟨a, b, rfl, fun hq => by rw [← hopen a hq, ha hq]⟩

end Scan

/-! ## Bare openers -/

/-- The mode that knows quotes only. -/
def ScanMode.quotes : ScanMode := { brackets := false, escapes := false }

/-- A comment opener stands outside quotes. -/
def BareOpener (cs : List Char) : Prop :=
  ∃ i ∈ topLevelAt .quotes cs, cs[i]? = some '/' ∧ cs[i + 1]? = some '*'

instance (cs : List Char) : Decidable (BareOpener cs) := inferInstanceAs (Decidable (∃ i ∈ _, _))

theorem mem_positionsFrom : ∀ {ms : List Bool} {k i : Nat}, i ∈ positionsFrom k ms ↔ ∃ j, i = k + j ∧ ms[j]? = some true
  | [], _, _ => by simp [positionsFrom]
  | true :: ms, k, i => by
    rw [positionsFrom, List.mem_cons, mem_positionsFrom]
    constructor
    · rintro (rfl | ⟨j, rfl, hj⟩)
      · exact ⟨0, rfl, rfl⟩
      · exact ⟨j + 1, by omega, hj⟩
    · rintro ⟨j, rfl, hj⟩
      cases j with
      | zero => exact Or.inl rfl
      | succ j => exact Or.inr ⟨j, by omega, hj⟩
  | false :: ms, k, i => by
    rw [positionsFrom, mem_positionsFrom]
    constructor
    · rintro ⟨j, rfl, hj⟩
      exact ⟨j + 1, by omega, hj⟩
    · rintro ⟨j, rfl, hj⟩
      cases j with
      | zero => cases hj
      | succ j => exact ⟨j, by omega, hj⟩

theorem step_quotes (n : Nesting) (c : Char) : n.step .quotes false c =
    ({ n with quote := Comment.quoteStep n.quote false c }, n.quote == none && !Nesting.isQuote c) := by
  obtain ⟨quote, round, square⟩ := n
  cases quote with
  | none => by_cases h : Nesting.isQuote c = true <;> simp [Nesting.step, Comment.quoteStep, ScanMode.quotes, h]
  | some q => by_cases h : (c == q) = true <;> simp [Nesting.step, Comment.quoteStep, h]

theorem marksFrom_quotes : ∀ (cs : List Char) (n : Nesting) (j : Nat), (marksFrom .quotes n false cs)[j]? =
    cs[j]?.map fun c => openQuote n.quote (cs.take j) == none && !Nesting.isQuote c
  | [], _, _ => by simp [marksFrom]
  | c :: cs, n, 0 => by
    rw [marksFrom, step_quotes]
    rfl
  | c :: cs, n, j + 1 => by
    rw [marksFrom, step_quotes]
    exact marksFrom_quotes cs _ j

/-- An opener is bare if the text before it leaves no quote open. -/
theorem bareOpener_iff {cs : List Char} : BareOpener cs ↔ ∃ a b, cs = a ++ '/' :: '*' :: b ∧ openQuote none a = none := by
  unfold BareOpener topLevelAt marks
  constructor
  · rintro ⟨i, hi, hslash, hstar⟩
    obtain ⟨j, rfl, hj⟩ := mem_positionsFrom.1 hi
    rw [Nat.zero_add] at hslash hstar
    rw [marksFrom_quotes, hslash] at hj
    obtain ⟨h1, he1⟩ := List.getElem?_eq_some_iff.1 hslash
    obtain ⟨h2, he2⟩ := List.getElem?_eq_some_iff.1 hstar
    refine ⟨cs.take j, cs.drop (j + 2), ?_, ?_⟩
    · conv_lhs => rw [← List.take_append_drop j cs, List.drop_eq_getElem_cons h1, List.drop_eq_getElem_cons h2, he1, he2]
    · simpa [Nesting.outside, show Nesting.isQuote '/' = false by decide] using hj
  · rintro ⟨a, b, rfl, ha⟩
    refine ⟨a.length, mem_positionsFrom.2 ⟨a.length, by simp, ?_⟩, by simp, by simp⟩
    rw [marksFrom_quotes]
    simp [Nesting.outside, ha, show Nesting.isQuote '/' = false by decide]

theorem bareOpener_iff_run {cs : List Char} : BareOpener cs ↔ Scan.run true .outside cs = none := by
  rw [bareOpener_iff, Scan.run_eq_none_iff (by simp)]
  simp [Scan.quote?]

theorem opener_iff_run {cs : List Char} : Comment.opener <:+: cs ↔ Scan.run false .outside cs = none := by
  rw [Scan.run_eq_none_iff (fun _ => rfl)]
  constructor
  · rintro ⟨a, b, rfl⟩
    exact Or.inr ⟨a, b, by simp [Comment.opener], by simp⟩
  · rintro (⟨h, -⟩ | ⟨a, b, rfl, -⟩)
    · cases h
    · exact ⟨a, b, by simp [Comment.opener]⟩

theorem BareOpener.isInfix {cs : List Char} (h : BareOpener cs) : Comment.opener <:+: cs := by
  obtain ⟨a, b, rfl, -⟩ := bareOpener_iff.1 h
  exact ⟨a, b, by simp [Comment.opener]⟩

/-! ## Texts on their way out -/

namespace Scan

variable {quotes : Bool}

theorem run_dropAfterFrom {p : Char → Bool} (hp : ∀ c, p c = true → quiet c = true) : ∀ (after : Bool) (cs : List Char)
    {s : Scan}, (after = true → s.calm = s) → run quotes s (Squeeze.dropAfterFrom p after cs) = run quotes s cs
  | _, [], _, _ => rfl
  | after, c :: cs, s, hs => by
    rw [Squeeze.dropAfterFrom]
    split
    · rename_i h
      rw [Bool.and_eq_true] at h
      rw [run_cons_quiet (quiet_of_blank h.2), hs h.1]
      exact run_dropAfterFrom hp true cs fun _ => hs h.1
    · rw [run, run]
      cases hstep : s.step quotes c with
      | none => rfl
      | some t =>
        refine run_dropAfterFrom hp (p c) cs fun hpc => ?_
        rw [step_quiet (hp c hpc)] at hstep
        rw [← Option.some.inj hstep, calm_calm]

theorem run_dropBefore {p : Char → Bool} (hp : ∀ c, p c = true → quiet c = true) : ∀ (cs : List Char) (s : Scan),
    run quotes s (Squeeze.dropBefore p cs) = run quotes s cs
  | [], _ => rfl
  | c :: cs, s => by
    have ih := run_dropBefore hp cs
    rw [Squeeze.dropBefore]
    split
    · rename_i h
      rw [Bool.and_eq_true] at h
      rw [run_cons_quiet (quiet_of_blank h.1), ← ih]
      cases hrest : Squeeze.dropBefore p cs with
      | nil => simp [hrest] at h
      | cons d ds =>
        have hd : quiet d = true := hp d (by simpa [hrest] using h.2)
        rw [run_cons_quiet hd, run_cons_quiet hd, calm_calm]
    · rw [run, run]
      cases s.step quotes c with
      | none => rfl
      | some t => exact ih t

theorem run_collapseRuns : ∀ (cs : List Char) (s : Scan), run quotes s (Squeeze.collapseRuns cs) = run quotes s cs
  | [], _ => rfl
  | c :: cs, s => by
    have ih := run_collapseRuns cs
    have hcons : run quotes s (c :: Squeeze.collapseRuns cs) = run quotes s (c :: cs) := by
      rw [run, run]
      cases s.step quotes c with
      | none => rfl
      | some t => exact ih t
    rw [Squeeze.collapseRuns]
    cases hrest : Squeeze.collapseRuns cs with
    | nil => rw [← hcons, hrest]
    | cons d ds =>
      simp only
      split
      · rename_i h
        rw [Bool.and_eq_true] at h
        rw [run_cons_quiet (quiet_of_blank h.1), ← ih, hrest, run_cons_quiet (quiet_of_blank h.2),
          run_cons_quiet (by decide), calm_calm]
      · rw [← hcons, hrest]

theorem finish_trim {s : Scan} (hs : s.calm = s) (cs : List Char) : finish quotes s (trim cs) = finish quotes s cs := by
  obtain ⟨a, b, ha, hb, he⟩ := exists_append_trim cs
  have hquiet : ∀ {d : List Char}, allBlank d = true → ∀ c ∈ d, quiet c = true :=
    fun hd c hc => quiet_of_blank (allBlank_iff.1 hd c hc)
  conv_rhs => rw [he]
  rw [finish_append_quiet (hquiet hb), finish, finish, run_quiet_append (hquiet ha) hs]

theorem quiet_of_beq {d : Char} (hd : quiet d = true) : ∀ c, (c == d) = true → quiet c = true := by
  intro c hc
  rwa [beq_iff_eq.1 hc]

theorem finish_value {s : Scan} (hs : s.calm = s) (cs : List Char) :
    finish quotes s (Squeeze.value cs) = finish quotes s cs := by
  unfold Squeeze.value Squeeze.dropAfter
  simp only
  rw [finish_trim hs, finish, finish, run_collapseRuns, run_dropAfterFrom (quiet_of_beq (by decide)) _ _ (by simp),
    run_dropBefore (quiet_of_beq (by decide)), run_dropAfterFrom (quiet_of_beq (by decide)) _ _ (by simp),
    run_dropAfterFrom (quiet_of_beq (by decide)) _ _ (by simp)]

theorem finish_params {s : Scan} (hs : s.calm = s) (cs : List Char) :
    finish quotes s (Squeeze.params cs) = finish quotes s cs := by
  unfold Squeeze.params Squeeze.dropAfter
  simp only
  rw [finish_trim hs, finish, finish, run_collapseRuns, run_dropAfterFrom (quiet_of_beq (by decide)) _ _ (by simp),
    run_dropBefore (quiet_of_beq (by decide)), run_dropBefore (quiet_of_beq (by decide)),
    run_dropAfterFrom (quiet_of_beq (by decide)) _ _ (by simp), run_dropAfterFrom (quiet_of_beq (by decide)) _ _ (by simp)]

/-! ## Selectors -/

theorem run_expand (cs : List Char) (s : Scan) : run quotes s (Selector.expand cs) = run quotes s cs := by
  refine Selector.expand_induction (P := fun cs r => ∀ s : Scan, run quotes s r = run quotes s cs) (fun _ => rfl)
    (fun rest ih s => ?_) (fun c cs _ ih s => ?_) cs s
  · have hmeaning : ∀ c ∈ Selector.aliasMeaning, quiet c = true := List.all_eq_true.1 rfl
    have hname : ∀ c ∈ Selector.aliasName, quiet c = true := List.all_eq_true.1 rfl
    rw [run_append, run_append, run_quiet hmeaning, run_quiet hname, if_neg (by decide), if_neg (by decide)]
    exact ih s.calm
  · rw [run, run]
    cases s.step quotes c with
    | none => rfl
    | some t => exact ih t

/-- **A text is cut where the scan is outside quotes**, so each part can be scanned on its own. -/
theorem finish_cutParts {sep : Char} (hsep : quiet sep = true) : ∀ (cs : List Char) (n : Nesting) {s : Scan},
    (quotes = true → n.quote = s.quote?) → (quotes = false → s.quote? = none) → finish quotes s cs = some outside →
      finish quotes s (cutParts sep (cs.zip (marksFrom .delimiters n false cs))).1 = some outside ∧
        ∀ part ∈ (cutParts sep (cs.zip (marksFrom .delimiters n false cs))).2, finish quotes outside part = some outside
  | [], n, s, _, _, h => ⟨h, by simp [cutParts]⟩
  | c :: cs, n, s, hn, hs, h => by
    obtain ⟨e, he, hcalm⟩ := Option.map_eq_some_iff.1 h
    obtain ⟨t, hstep, hrun⟩ := Option.bind_eq_some_iff.1 he
    obtain ⟨hquote, hnone⟩ := quote?_step hstep
    have ih := finish_cutParts hsep cs (n.step .delimiters false c).1 (s := t)
      (fun hq => by rw [Nesting.step_quote, hquote hq, hn hq]) (fun hq => hnone hq (hs hq)) (by rw [finish, hrun]; exact congrArg some hcalm)
    have hcons : ∀ ds, finish quotes s (c :: ds) = finish quotes t ds := by
      intro ds
      rw [finish, run, hstep]
      rfl
    rw [marksFrom, List.zip_cons_cons, cutParts]
    simp only
    split
    · rename_i hcut
      rw [isCut, Bool.and_eq_true, beq_iff_eq] at hcut
      obtain ⟨htop, rfl⟩ := hcut
      have hopen : n.quote = none := by
        cases hquote : n.quote with
        | none => rfl
        | some d =>
          rw [Nesting.step_inside hquote] at htop
          cases htop
      have hout : s.calm = outside := by
        rw [calm_eq_outside]
        cases quotes with
        | true => rw [← hn rfl, hopen]
        | false => exact hs rfl
      rw [step_quiet hsep, hout] at hstep
      obtain rfl := Option.some.inj hstep
      rw [List.forall_mem_cons]
      exact ⟨congrArg some hout, ih⟩
    · exact ⟨(hcons _).trans ih.1, ih.2⟩

/-- A text that is read from outside quotes and leaves the scan outside. -/
def Sealed (quotes : Bool) (cs : List Char) : Prop := finish quotes outside cs = some outside

theorem sealed_iff {cs : List Char} :
    Sealed quotes cs ↔ (quotes = true → openQuote none cs = none ∧ ¬BareOpener cs) ∧
      (quotes = false → ¬Comment.opener <:+: cs) := by
  rw [bareOpener_iff_run, opener_iff_run, Sealed, finish]
  constructor
  · intro h
    obtain ⟨s, hs, hcalm⟩ := Option.map_eq_some_iff.1 h
    refine ⟨?_, ?_⟩ <;> rintro rfl
    · exact ⟨((quote?_run hs).1 rfl).symm.trans (calm_eq_outside.1 hcalm), by simp [hs]⟩
    · simp [hs]
  · rintro ⟨hquotes, hplain⟩
    cases hrun : run quotes outside cs with
    | none => cases quotes <;> simp_all
    | some s =>
      rw [Option.map_some, Option.some.injEq, calm_eq_outside]
      cases quotes with
      | false => exact (quote?_run hrun).2 rfl rfl
      | true => exact ((quote?_run hrun).1 rfl).trans (hquotes rfl).1

theorem Sealed.run_quiet {a : List Char} (ha : Sealed quotes a) {c : Char} (hc : quiet c = true) (b : List Char) :
    run quotes outside (a ++ c :: b) = run quotes outside b := by
  rw [run_append_quiet hc, ha]
  rfl

theorem sealed_splitTopLevel {sep : Char} (hsep : quiet sep = true) {cs : List Char} (h : Sealed quotes cs) :
    ∀ part ∈ splitTopLevel sep cs, Sealed quotes part := by
  obtain ⟨hfirst, hothers⟩ := finish_cutParts hsep cs Nesting.outside (fun _ => rfl) (fun _ => rfl) h
  intro part hp
  have hmem := dropBlankLast_subset _ hp
  rcases List.mem_cons.1 hmem with rfl | hmem
  · exact hfirst
  · exact hothers part hmem

theorem sealed_intercalate {sep : Char} (hsep : quiet sep = true) : ∀ {parts : List (List Char)},
    (∀ part ∈ parts, Sealed quotes part) → Sealed quotes ([sep].intercalate parts)
  | [], _ => rfl
  | [part], h => by simpa using h part List.mem_cons_self
  | part :: next :: parts, h => by
    rw [List.forall_mem_cons] at h
    rw [List.intercalate_cons_cons, List.append_assoc, List.singleton_append]
    unfold Sealed finish
    rw [h.1.run_quiet hsep]
    exact sealed_intercalate hsep h.2

theorem sealed_nestPart {part : List Char} (h : Sealed quotes part) : Sealed quotes (Selector.nestPart part) := by
  have he : Sealed quotes (Selector.expand (trim part)) := by
    unfold Sealed finish
    rw [run_expand]
    exact (finish_trim rfl part).trans h
  have hfront : ∀ {c : Char}, quiet c = true → ∀ {cs : List Char}, Sealed quotes cs → Sealed quotes (c :: cs) := by
    intro c hc cs hcs
    unfold Sealed finish
    rw [run_cons_quiet hc]
    exact hcs
  unfold Selector.nestPart
  simp only
  split
  · exact he
  · split
    · rfl
    · exact he
    · exact hfront (by decide) he
    · exact hfront (by decide) he
    · exact hfront (by decide) (hfront (by decide) he)

theorem sealed_normalise {selector : List Char} (h : Sealed quotes selector) (nested : Bool) :
    Sealed quotes (Selector.normalise nested true selector) := by
  have he : Sealed quotes (Selector.expand (trim selector)) := by
    unfold Sealed finish
    rw [run_expand]
    exact (finish_trim rfl selector).trans h
  have hparts := @sealed_splitTopLevel quotes ',' (by decide) _ he
  unfold Selector.normalise Selector.separator
  simp only [if_true]
  split
  · refine sealed_intercalate (by decide) fun part hp => ?_
    obtain ⟨p, hmem, rfl⟩ := List.mem_map.1 hp
    exact sealed_nestPart (hparts p hmem)
  · split
    · refine sealed_intercalate (by decide) fun part hp => ?_
      obtain ⟨p, hmem, rfl⟩ := List.mem_map.1 hp
      exact (finish_trim rfl p).trans (hparts p hmem)
    · exact he

end Scan

end Offside
