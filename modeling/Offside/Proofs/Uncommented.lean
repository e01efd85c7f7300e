import Mathlib.Data.List.Chain
import Offside.Proofs.Seams
import Offside.Proofs.Stripping
import Offside.Proofs.Verbatim

/-!
# No comments in compact output

Stripping leaves an opener only where nothing closes it, or where a comment was taken out from between a
slash and a star (`Stripped`).  If no logical line has one outside quotes, and no constant puts one
together, no line of the output has one: each line is scanned from outside quotes to outside quotes
(`Scan.Sealed.emits`).
-/
namespace Offside

/-! ## Stripping -/

/-- Every block comment that begins ends, and none is taken out from between a slash and a star. -/
structure Stripped (source : List Char) : Prop where
  closed : blocksClosed (unifyBreaks source) = true
  apart : (kept true source).IsChain fun p q => p.1 = '/' → q.1 = '*' → q.2 = p.2 + 1

/-- What the first pass leaves of an opener was not an opener before. -/
theorem isChain_replaceFrom_blockAt : ∀ {ps : List Placed} {skip : Nat}, blocksClosedFrom skip (ps.map Prod.fst) = true →
    (ps.map Prod.snd).Pairwise (· < ·) →
      (replaceFrom (blockAt Prod.fst) skip ps).IsChain fun p q => p.1 = '/' → q.1 = '*' → q.2 ≠ p.2 + 1
  | [], _, _, _ => by simp [replaceFrom]
  | p :: ps, skip + 1, h, hp => by
    rw [List.map_cons, blocksClosedFrom] at h
    rw [replaceFrom]
    exact isChain_replaceFrom_blockAt h (List.pairwise_cons.1 hp).2
  | p :: ps, 0, h, hp => by
    have hp' := List.pairwise_cons.1 hp
    have hmap := @blockAt_map Placed Char Prod.fst id Prod.fst (fun _ => rfl) (p :: ps)
    rw [List.map_cons, blocksClosedFrom, ← List.map_cons, hmap] at h
    rw [replaceFrom]
    cases hrule : blockAt Prod.fst (p :: ps) with
    | some found =>
      simp only [hrule, Option.map_some] at h
      simp only [put_blockAt Prod.fst hrule, List.nil_append]
      exact isChain_replaceFrom_blockAt h hp'.2
    | none =>
      simp only [hrule, Option.map_none, Bool.and_eq_true, Bool.not_eq_true'] at h
      refine List.isChain_cons.2 ⟨fun q hq hslash hstar hnext => ?_, isChain_replaceFrom_blockAt h.2 hp'.2⟩
      -- the star is in the next place, so it was next to the slash before
      have hmem := (replaceFrom_blockAt_sublist Prod.fst 0 ps).subset (List.mem_of_head? hq)
      cases ps with
      | nil => cases hmem
      | cons r ps =>
        have hr : p.2 < r.2 := hp'.1 _ (by simp)
        have hqr : q = r := by
          rcases List.mem_cons.1 hmem with rfl | hlater
          · rfl
          · have hlt : r.2 < q.2 := (List.pairwise_cons.1 hp'.2).1 _ (List.mem_map_of_mem hlater)
            omega
        subst hqr
        simp [Comment.opener, hslash, hstar] at h

/-- The second pass brings nothing together but a line break with what was before. -/
theorem isChain_dropLineComments {R : Placed → Placed → Prop} (hR : ∀ p q, q.1 = '\n' → R p q) :
    ∀ {ps : List Placed} (free inside : Bool), ps.IsChain R →
      (dropLineComments Prod.fst free inside ps).IsChain R ∧
        ∀ q ∈ (dropLineComments Prod.fst free inside ps).head?, q ∈ ps.head? ∧ inside = false ∨ q.1 = '\n'
  | [], _, _, _ => by simp [dropLineComments]
  | p :: ps, free, inside, h => by
    have h' := List.isChain_cons.1 h
    have hkeep : ∀ free', (p :: dropLineComments Prod.fst free' false ps).IsChain R := by
      intro free'
      obtain ⟨hchain, hhead⟩ := isChain_dropLineComments hR free' false h'.2
      refine List.isChain_cons.2 ⟨fun q hq => ?_, hchain⟩
      exact (hhead q hq).elim (fun hnext => h'.1 q hnext.1) (hR p q)
    have hdrop : (dropLineComments Prod.fst false true ps).IsChain R ∧
        ∀ q ∈ (dropLineComments Prod.fst false true ps).head?, q ∈ (p :: ps).head? ∧ inside = false ∨ q.1 = '\n' := by
      obtain ⟨hchain, hhead⟩ := isChain_dropLineComments hR false true h'.2
      exact ⟨hchain, fun q hq => Or.inr ((hhead q hq).resolve_left (by simp))⟩
    rw [dropLineComments]
    split
    · rename_i hbreak
      refine ⟨hkeep true, fun q hq => Or.inr ?_⟩
      rw [List.head?_cons, Option.mem_some_iff] at hq
      rw [← hq]
      simpa using hbreak
    · split
      · exact hdrop
      · rename_i hinside
        split
        · exact hdrop
        · refine ⟨hkeep _, fun q hq => Or.inl ⟨hq, by simpa using hinside⟩⟩

theorem Stripped.kept {source : List Char} (h : Stripped source) :
    ¬Comment.opener <:+: (kept true source).map Prod.fst := by
  rintro ⟨a, b, he⟩
  rw [List.append_assoc] at he
  obtain ⟨front, back, hkept, -, hback⟩ := List.map_eq_append_iff.1 he.symm
  obtain ⟨p, back, rfl, hslash, hback⟩ := List.map_eq_cons_iff.1 hback
  obtain ⟨q, back, rfl, hstar, -⟩ := List.map_eq_cons_iff.1 hback
  have hplaces := (List.pairwise_append.1 (kept_ascending false source)).1
  have hclosed : blocksClosedFrom 0 ((place source).map Prod.fst) = true := by
    rw [place, placeFrom_map_fst]
    exact h.closed
  have hblocks := isChain_replaceFrom_blockAt hclosed hplaces
  have hlines := (isChain_dropLineComments (fun p q hq _ hstar => by rw [hq] at hstar; cases hstar) true false hblocks).1
  have happart := List.isChain_iff_forall_rel_of_append_cons_cons.1 h.apart hkept hslash hstar
  exact List.isChain_iff_forall_rel_of_append_cons_cons.1 hlines hkept hslash hstar happart

theorem Stripped.logical {compact : Bool} {source : List Char} (h : Stripped source) {r : Reader}
    (hread : readLines compact (prepare true source) = (r, .ok ())) : ∀ l ∈ r.logical, ¬Comment.opener <:+: l.text := by
  refine (readLines_grouped hread).forall_text (P := fun text => ¬Comment.opener <:+: text) (fun line hl hin => ?_)
    fun text next _ ht hn => ?_
  · exact h.kept (hin.trans ((trim_isInfix line.text).trans (prepare_isInfix hl)))
  · have hkept : Scan.Sealed false (trimRight text.dropLast) :=
      Scan.sealed_iff.2 ⟨by simp, fun _ hin =>
        ht (hin.trans ((trimRight_isPrefix text.dropLast).trans (List.dropLast_prefix text)).isInfix)⟩
    rw [opener_iff_run] at hn ⊢
    rwa [joinText, List.append_assoc, List.cons_append, hkept.run_quiet (by decide), List.singleton_append,
      Scan.run_cons_quiet (by decide)]

namespace Scan

variable {quotes : Bool}

/-! ## Statements -/

theorem calm_of_finish {s t : Scan} {cs : List Char} (h : finish quotes s cs = some t) : t.calm = t := by
  obtain ⟨u, -, rfl⟩ := Option.map_eq_some_iff.1 h
  exact calm_calm u

theorem quote?_finish {s t : Scan} {cs : List Char} (h : finish quotes s cs = some t) :
    (quotes = true → t.quote? = openQuote s.quote? cs) ∧ (quotes = false → s.quote? = none → t.quote? = none) := by
  obtain ⟨u, hu, rfl⟩ := Option.map_eq_some_iff.1 h
  rw [quote?_calm]
  exact quote?_run hu

/-- A text with something quiet in it is scanned in two parts. -/
theorem finish_cut {s t : Scan} {a b : List Char} {c : Char} (hc : quiet c = true)
    (h : finish quotes s (a ++ c :: b) = some t) : ∃ u, finish quotes s a = some u ∧ finish quotes u b = some t := by
  rw [finish, run_append_quiet hc] at h
  obtain ⟨v, hv, rfl⟩ := Option.map_eq_some_iff.1 h
  obtain ⟨u, hu, hb⟩ := Option.bind_eq_some_iff.1 hv
  exact ⟨u, hu, by rw [finish, hb]; rfl⟩

theorem finish_cons_quiet {c : Char} (hc : quiet c = true) (s : Scan) (cs : List Char) :
    finish quotes s (c :: cs) = finish quotes s.calm cs := by
  rw [finish, finish, run_cons_quiet hc]

theorem finish_splitConst {s : Scan} (hs : s.calm = s) (value : List Char) :
    finish quotes s (Statement.splitConst value).1 = finish quotes s value := by
  unfold Statement.splitConst
  split
  · rename_i hsuffix
    obtain ⟨front, rfl⟩ := List.isSuffixOf_iff_suffix.1 hsuffix
    have hmark : ∀ c ∈ Statement.constMark, quiet c = true := List.all_eq_true.1 rfl
    simp only [List.length_append, Nat.add_sub_cancel, List.take_left]
    rw [finish_trim hs, finish_append_quiet hmark]
  · rfl

end Scan

/-- The text in which references are replaced when a statement is written, and what is written before it. -/
def Statement.fields? : Statement → Option (List Char × List Char)
  | .leaf (.define name value _ _) => some (name, value)
  | .leaf (.declare property value _) => some (property, value)
  | .heading (.atRule name params _) => some (name, params)
  | _ => none

/-- No constant makes an opener in what a statement writes; if quotes count, none gets into quotes either. -/
def Statement.Seamless (quotes : Bool) (env : Env) (s : Statement) : Prop :=
  ∀ f ∈ s.fields?, seamless env.get? f.2 = true ∧ (quotes = true → unquoted env.get? (openQuote none f.1) f.2 = true)

instance (quotes : Bool) (env : Env) (s : Statement) : Decidable (s.Seamless quotes env) :=
  inferInstanceAs (Decidable (∀ f ∈ s.fields?, _))

namespace Scan

variable {quotes : Bool} {o : Options} {env : Env}

/-- The constants that a reference can name are sealed. -/
def Constant (quotes : Bool) (name value : List Char) : Prop := (∀ c ∈ name, isNameChar c = true) → Sealed quotes value

theorem Meets.of_fields {s : Statement} {lead text : List Char} (h : s.Seamless quotes env)
    (hf : s.fields? = some (lead, text)) {t : Scan} (hlead : finish quotes outside lead = some t) :
    Meets quotes env.get? t (chunks text) := by
  obtain ⟨hseam, hquoted⟩ := h _ hf
  obtain ⟨hopens, hcloses⟩ := quote?_finish hlead
  refine meets_of_seamless (calm_of_finish hlead) (fun hq => hcloses hq rfl) hseam fun hq => ?_
  rw [hopens hq]
  exact hquoted hq

theorem finish_substitute (henv : env.Holds (Constant quotes)) {text : List Char} {s t : Scan}
    (hmeets : Meets quotes env.get? s (chunks text)) (h : finish quotes s text = some t) :
    finish quotes s (env.substitute text) = some t := by
  obtain ⟨u, hu, rfl⟩ := Option.map_eq_some_iff.1 h
  obtain ⟨e, he, hcalm⟩ := run_substitute (fun name value hget hname => henv name value hget hname) hmeets hu
  rw [finish, Env.substitute, he]
  exact congrArg some hcalm

theorem run_entry (hc : o.compact = true) (henv : env.Holds (Constant quotes)) {lead text : List Char} {s : Scan}
    (hlead : finish quotes outside lead = some s) (hmeets : Meets quotes env.get? s (chunks text))
    (htext : finish quotes s text = some outside) (comment : Option Comment) :
    run quotes outside (o.entry env lead text comment) = some outside := by
  have hvalue : finish quotes s (Squeeze.value (env.substitute text)) = some outside := by
    rw [finish_value (calm_of_finish hlead), finish_substitute henv hmeets htext]
  have he : o.entry env lead text comment = lead ++ ':' :: (Squeeze.value (env.substitute text) ++ [';']) := by
    unfold Options.entry Options.withComment Options.colon Options.value
    simp only [hc, if_true]
    cases comment <;> simp
  rw [he, run_append_quiet (by decide), hlead, Option.bind_some, run_append_quiet (by decide), hvalue]
  rfl

theorem sealed_atHeading (hc : o.compact = true) (henv : env.Holds (Constant quotes)) {name params : List Char}
    (hname : ∀ c ∈ name, isNameChar c = true) (hmeets : Meets quotes env.get? outside (chunks params))
    (hparams : Sealed quotes params) : Sealed quotes (o.atHeading env.substitute name params) := by
  have hquiet : ∀ c ∈ '@' :: name, quiet c = true := by
    rw [List.forall_mem_cons]
    exact ⟨by decide, fun c hm => quiet_of_nameChar (hname c hm)⟩
  have hsqueezed : Sealed quotes (Squeeze.params (env.substitute params)) := by
    unfold Sealed
    rw [finish_params rfl, finish_substitute henv hmeets hparams]
  have hfront : ∀ {cs : List Char}, Sealed quotes cs → Sealed quotes ('@' :: name ++ cs) := by
    intro cs hcs
    unfold Sealed finish
    rw [run_quiet_append hquiet rfl]
    exact hcs
  unfold Options.atHeading
  simp only [hc, if_true]
  split
  · simpa using @hfront [] rfl
  · split
    · simpa using @hfront [] rfl
    · rename_i hrest
      rw [hrest] at hsqueezed
      exact hfront hsqueezed
    · refine hfront ?_
      unfold Sealed
      rw [finish_cons_quiet (by decide)]
      exact hsqueezed

/-- A line that is scanned from outside quotes to outside quotes, with nothing of an opener at its end. -/
def Line (quotes : Bool) (line : List Char) : Prop := run quotes outside line = some outside

theorem Sealed.line {cs : List Char} (h : Sealed quotes cs) {c : Char} (hc : quiet c = true) : Line quotes (cs ++ [c]) :=
  h.run_quiet hc []

theorem line_flatten : ∀ {lines : List (List Char)}, (∀ line ∈ lines, Line quotes line) → Line quotes lines.flatten
  | [], _ => rfl
  | line :: lines, h => by
    rw [List.forall_mem_cons] at h
    unfold Line
    rw [List.flatten_cons, run_append, h.1]
    exact line_flatten h.2

/-- What a statement has to be for its line to be scanned so. -/
structure Readable (quotes : Bool) (env : Env) (s : Statement) : Prop where
  reads : ∃ main, Sealed quotes main ∧ Statement.Reads none main s
  seams : s.Seamless quotes env

/-- What stands before the colon of a definition or a declaration, and what behind. -/
theorem Sealed.colon {before behind : List Char} (h : Sealed quotes (before ++ ':' :: behind)) :
    ∃ s, finish quotes outside (trim before) = some s ∧ finish quotes s (trim behind) = some outside := by
  obtain ⟨s, hbefore, hbehind⟩ := finish_cut (by decide) h
  have hname : finish quotes outside (trim before) = some s := (finish_trim rfl before).trans hbefore
  exact ⟨s, hname, (finish_trim (calm_of_finish hname) behind).trans hbehind⟩

theorem Readable.define {name value : List Char} {constant : Bool} {comment : Option Comment}
    (h : Readable quotes env (.leaf (.define name value constant comment))) :
    ∃ s, finish quotes outside name = some s ∧ finish quotes s value = some outside ∧
      Meets quotes env.get? s (chunks value) := by
  obtain ⟨main, hsealed, hreads⟩ := h.reads
  cases hreads with
  | @define before behind _ =>
    rw [Sealed, finish_cons_quiet (by decide)] at hsealed
    obtain ⟨s, hname, hvalue⟩ := Sealed.colon hsealed
    exact ⟨s, hname, (finish_splitConst (calm_of_finish hname) _).trans hvalue, .of_fields h.seams rfl hname⟩

theorem Readable.declare {property value : List Char} {comment : Option Comment}
    (h : Readable quotes env (.leaf (.declare property value comment))) :
    ∃ s, finish quotes outside property = some s ∧ finish quotes s value = some outside ∧
      Meets quotes env.get? s (chunks value) := by
  obtain ⟨main, hsealed, hreads⟩ := h.reads
  cases hreads with
  | declare _ =>
    obtain ⟨s, hname, hvalue⟩ := hsealed.colon
    exact ⟨s, hname, hvalue, .of_fields h.seams rfl hname⟩

theorem Readable.title (hc : o.compact = true) (henv : env.Holds (Constant quotes)) {heading : Heading}
    (h : Readable quotes env (.heading heading)) (nested : Bool) : Sealed quotes (o.title env nested heading) := by
  have hplain : ∀ line comment, o.withComment line comment = line := by
    intro line comment
    cases comment <;> simp [Options.withComment, hc]
  obtain ⟨main, hsealed, hreads⟩ := h.reads
  cases hreads with
  | rule =>
    rw [Options.title, hplain, hc]
    exact sealed_normalise hsealed nested
  | @atRule rest name params hrest hname =>
    have hquiet : ∀ c ∈ name, quiet c = true := fun c hm => quiet_of_nameChar (hname c hm)
    have hlead : finish quotes outside name = some outside := finish_append_quiet hquiet outside []
    have hparams : Sealed quotes (trim params) := by
      rw [Sealed, finish_cons_quiet (by decide), ← finish_trim rfl, hrest, finish, run_quiet_append hquiet rfl] at hsealed
      exact (finish_trim rfl params).trans hsealed
    rw [Options.title, hplain]
    exact sealed_atHeading hc henv hname (.of_fields h.seams rfl hlead) hparams

theorem Readable.constant (hc : o.compact = true) (henv : env.Holds (Constant quotes)) {name value : List Char}
    {comment : Option Comment} (h : Readable quotes env (.leaf (.define name value true comment))) :
    Constant quotes name (o.value (env.substitute value)) := by
  intro hname
  obtain ⟨s, hlead, hvalue, hmeets⟩ := h.define
  have hquiet : finish quotes outside name = some outside :=
    finish_append_quiet (fun c hm => quiet_of_nameChar (hname c hm)) outside []
  obtain rfl := Option.some.inj (hlead.symm.trans hquiet)
  unfold Sealed Options.value
  rw [if_pos hc, finish_value rfl, finish_substitute henv hmeets hvalue]

/-- **Every line is scanned from outside quotes to outside quotes.** -/
theorem Sealed.emits (hc : o.compact = true) :
    Emits o (Readable quotes) (Constant quotes) (Line quotes) (Line quotes) := by
  have hindent : ∀ depth, o.indentAt depth = [] := fun depth => by simp [Options.indentAt, hc]
  have hopening : o.opening = ['\x7b'] := by simp [Options.opening, hc]
  have hentry : ∀ {env : Env} {name value : List Char} {comment : Option Comment}, env.Holds (Constant quotes) →
      Readable quotes env (.leaf (.define name value false comment)) →
        Line quotes (o.entry env ('-' :: '-' :: name) value comment) := by
    intro env name value comment henv h
    obtain ⟨s, hlead, hvalue, hmeets⟩ := h.define
    refine run_entry hc henv ?_ hmeets hvalue comment
    rw [finish_cons_quiet (by decide), finish_cons_quiet (by decide)]
    exact hlead
  refine ⟨fun henv h => h.constant hc henv, ?_, ?_, ?_, ?_, ?_⟩
  · intro env item root text henv h hline depth
    rw [hindent, List.nil_append]
    rcases Leaf.line?_cases hline with ⟨_, _, _, rfl, rfl⟩ | ⟨_, _, _, rfl, rfl⟩ | ⟨_, -, hformatted, -⟩
    · obtain ⟨s, hlead, hvalue, hmeets⟩ := h.declare
      exact run_entry hc henv hlead hmeets hvalue _
    · exact hentry henv h
    · rw [hc] at hformatted
      cases hformatted
  · intro env item root text henv h hline
    obtain ⟨_, _, _, rfl, rfl⟩ := Leaf.rootLine?_cases hline
    exact hentry henv h
  · intro env heading henv h nested depth
    rw [hindent, List.nil_append, hopening]
    have htitle := h.title hc henv nested
    exact ⟨htitle.line (by decide), htitle.line (by decide)⟩
  · intro depth
    rw [hindent, List.nil_append, hopening, Options.guardHeading, if_pos hc, Line]
    cases quotes <;> decide
  · intro depth
    rw [Options.closing, hindent, Line]
    cases quotes <;> decide

theorem Line.render (hc : o.compact = true) (hroot : Sealed quotes o.rootSelector) {out : Output}
    (hlines : ∀ line ∈ out.lines, Line quotes line) (hvariables : ∀ line ∈ out.rootVariables, Line quotes line) :
    Line quotes (out.render o) := by
  have hblock : ∀ line ∈ out.rootBlock o, Line quotes line := by
    intro line hl
    simp only [Output.rootBlock, hc, if_true] at hl
    split at hl
    · cases hl
    · rw [List.mem_singleton.1 hl, List.append_assoc, List.append_assoc, List.singleton_append]
      unfold Line
      rw [hroot.run_quiet (by decide), run_append, line_flatten hvariables]
      cases quotes <;> decide
  unfold Output.render
  simp only [hc, if_true]
  exact line_flatten (List.forall_mem_append.2 ⟨hblock, hlines⟩)

/-- **The whole output is scanned so**, if all logical lines are. -/
theorem Line.css {source : List Char} {c : Compilation} (hc : o.compact = true) (hroot : Sealed quotes o.rootSelector)
    (h : compileAll o source = .ok c) (hlogical : ∀ l ∈ c.logical, Sealed quotes l.text)
    (hseams : ∀ p ∈ Sheet.seen o (.ofScopes [] []) c.sheet, p.2.Seamless quotes p.1) : Line quotes c.css := by
  obtain ⟨r, hread, rfl⟩ := compileAll_ok h
  have hreadable : ∀ p ∈ Sheet.seen o (.ofScopes [] []) r.sheet, Readable quotes p.1 p.2 := by
    intro p hp
    obtain ⟨l, hl, hstatement⟩ := exists_logical hread (Sheet.mem_of_seen hp)
    rw [hc, Statement.read_compact] at hstatement
    exact ⟨⟨_, (finish_trim rfl l.text).trans (hlogical l hl), Statement.readMain_reads hstatement⟩, hseams p hp⟩
  obtain ⟨out, -, hcss, hlines, hvariables⟩ := (Sealed.emits hc).sheet hreadable
  exact hcss ▸ Line.render hc hroot hlines hvariables

end Scan

/-- **Comments in compact output.**  A source whose block comments all end, with none between a slash and a star, has no
opener in its logical lines.  What has none there has none in the output; and if each logical line closes its quotes and
has its openers between them, so does the output.  In both cases no constant may put an opener together, and in the
second none may bring a quote into quotes. -/
theorem compact_uncommented {o : Options} {source : List Char} {c : Compilation} (hc : o.compact = true)
    (hroot : '/' ∉ o.rootSelector) (h : compileAll o source = .ok c) :
    (Stripped source → ∀ l ∈ c.logical, ¬Comment.opener <:+: l.text) ∧
    ((∀ l ∈ c.logical, ¬Comment.opener <:+: l.text) →
      (∀ p ∈ Sheet.seen o (.ofScopes [] []) c.sheet, p.2.Seamless false p.1) → ¬Comment.opener <:+: c.css) ∧
    ((∀ l ∈ c.logical, openQuote none l.text = none ∧ ¬BareOpener l.text) → openQuote none o.rootSelector = none →
      (∀ p ∈ Sheet.seen o (.ofScopes [] []) c.sheet, p.2.Seamless true p.1) →
        openQuote none c.css = none ∧ ¬BareOpener c.css) := by
  have hplain : ¬Comment.opener <:+: o.rootSelector := fun hin => hroot (hin.subset (by decide))
  have hsealed : ∀ {quotes : Bool}, Scan.Line quotes c.css → Scan.Sealed quotes c.css := fun hline => by
    rw [Scan.Sealed, Scan.finish, hline]
    rfl
  refine ⟨fun hstripped => ?_, fun hlogical hseams => ?_, fun hlogical hopen hseams => ?_⟩
  · obtain ⟨r, hread, rfl⟩ := compileAll_ok h
    rw [hc] at hread
    exact hstripped.logical hread
  · have hselector : Scan.Sealed false o.rootSelector := Scan.sealed_iff.2 ⟨by simp, fun _ => hplain⟩
    have hlines : ∀ l ∈ c.logical, Scan.Sealed false l.text := fun l hl =>
      Scan.sealed_iff.2 ⟨by simp, fun _ => hlogical l hl⟩
    exact (Scan.sealed_iff.1 (hsealed (.css hc hselector h hlines hseams))).2 rfl
  · have hselector : Scan.Sealed true o.rootSelector :=
      Scan.sealed_iff.2 ⟨fun _ => ⟨hopen, fun hbare => hplain hbare.isInfix⟩, by simp⟩
    have hlines : ∀ l ∈ c.logical, Scan.Sealed true l.text := fun l hl =>
      Scan.sealed_iff.2 ⟨fun _ => hlogical l hl, by simp⟩
    exact (Scan.sealed_iff.1 (hsealed (.css hc hselector h hlines hseams))).1 rfl

/-- A constant behind a slash: once with comments of both kinds around it, once behind a string that holds an opener. -/
theorem compact_uncommented_slash :
    (∃ c, compileAll { compact := true } "$w: 4 !const\n/* a */b // c\n  d: 2/$w".toList = .ok c ∧
      c.css = "b\x7bd:2/4;\x7d".toList ∧ ¬Comment.opener <:+: c.css) ∧
    ∃ c, compileAll { compact := true } "$w: 4 !const\nb\n  d: \"/*\" 2/$w".toList = .ok c ∧
      c.css = "b\x7bd:\"/*\" 2/4;\x7d".toList ∧ ¬BareOpener c.css := by
  constructor
  · have hc : compileAll { compact := true } "$w: 4 !const\n/* a */b // c\n  d: 2/$w".toList = .ok
        { lines := [⟨"$w: 4 !const".toList, 0⟩, ⟨"b ".toList, 20⟩, ⟨"  d: 2/$w".toList, 27⟩]
          logical := [⟨"$w: 4 !const".toList, 0, 0⟩, ⟨['b'], 20, 0⟩, ⟨"d: 2/$w".toList, 27, 2⟩]
          sheet := .leaf (.define ['w'] ['4'] true none)
            (.block (.rule ['b'] none) (.leaf (.declare ['d'] "2/$w".toList none) .nil) .nil)
          css := "b\x7bd:2/4;\x7d".toList } := by
      decide +kernel
    obtain ⟨hstripped, hlogical, -⟩ := compact_uncommented rfl (by decide) hc
    have hsource : Stripped "$w: 4 !const\n/* a */b // c\n  d: 2/$w".toList := ⟨by decide, by decide⟩
    exact ⟨_, hc, rfl, hlogical (hstripped hsource) (by decide)⟩
  · have hc : compileAll { compact := true } "$w: 4 !const\nb\n  d: \"/*\" 2/$w".toList = .ok
        { lines := [⟨"$w: 4 !const".toList, 0⟩, ⟨['b'], 13⟩, ⟨"  d: \"/*\" 2/$w".toList, 15⟩]
          logical := [⟨"$w: 4 !const".toList, 0, 0⟩, ⟨['b'], 13, 0⟩, ⟨"d: \"/*\" 2/$w".toList, 15, 2⟩]
          sheet := .leaf (.define ['w'] ['4'] true none)
            (.block (.rule ['b'] none) (.leaf (.declare ['d'] "\"/*\" 2/$w".toList none) .nil) .nil)
          css := "b\x7bd:\"/*\" 2/4;\x7d".toList } := by
      decide +kernel
    obtain ⟨-, -, hquoted⟩ := compact_uncommented rfl (by decide) hc
    exact ⟨_, hc, rfl, (hquoted (by decide) (by decide) (by decide)).2⟩

/-- **A comment that nothing closes stays**, and the rest of the output is in it. -/
theorem compact_unclosed_comment : ∃ css, compile { compact := true } "a /* b".toList = .ok css ∧
    css = "a /* b\x7b\x7d".toList ∧ BareOpener css :=
  ⟨_, by decide +kernel, rfl, by decide⟩

end Offside
