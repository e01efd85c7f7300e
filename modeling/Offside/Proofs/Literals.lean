import Offside.Proofs.Canonical
import Offside.Proofs.Extending
import Offside.Proofs.Gaps
import Offside.Proofs.Uncommented

/-!
# Squeezing and constants

Compact output squeezes a constant as a value where it is defined, and squeezes again the text it is put into.  In a
value the first time makes no difference, as long as the constant begins and ends with something visible.  In the
parameters of an at-rule it does, if the constant has a blank behind a closing bracket that parameters would keep:
`(a) and (b)` has become `(a)and (b)` before it gets there.  For a source without comments both modes read the same
sheet, and `compile_squeezes` compares what they write, text by text.
-/
namespace Offside

/-! ## Sources without comments -/

/-- Nothing begins a comment, in quotes or out of them. -/
def Unmarked (cs : List Char) : Prop := cs.IsChain fun a b => a = '/' → b ≠ '/' ∧ b ≠ '*'

instance (cs : List Char) : Decidable (Unmarked cs) := inferInstanceAs (Decidable (cs.IsChain _))

namespace Unmarked

theorem isInfix {a cs : List Char} (h : Unmarked cs) (ha : a <:+: cs) : Unmarked a := h.infix ha

theorem tail {c : Char} {cs : List Char} (h : Unmarked (c :: cs)) : Unmarked cs := (List.isChain_cons.1 h).2

theorem markerAt {cs : List Char} (h : Unmarked cs) : Comment.markerAt cs = false := by
  unfold Comment.markerAt
  split
  · rename_i a b rest
    have hab := (List.isChain_cons_cons.1 h).1
    by_cases ha : a = '/'
    · simp [hab ha]
    · simp [ha]
  · rfl

theorem codeFrom : ∀ {cs : List Char}, Unmarked cs → ∀ (quote : Option Char) (escaped : Bool),
    Comment.codeFrom quote escaped cs = cs
  | [], _, _, _ => rfl
  | c :: cs, h, quote, escaped => by
    rw [Comment.codeFrom, h.markerAt, Bool.and_false, codeFrom h.tail]
    rfl

theorem unifyBreaks {cs : List Char} (h : Unmarked cs) : Unmarked (unifyBreaks cs) := by
  fun_induction Offside.unifyBreaks cs with
  | case1 => exact h
  | case2 cs ih => exact List.isChain_cons.2 ⟨by simp, ih h.tail.tail⟩
  | case3 cs _ ih => exact List.isChain_cons.2 ⟨by simp, ih h.tail⟩
  | case4 c cs _ _ ih =>
    refine List.isChain_cons.2 ⟨fun d hd hc => ?_, ih h.tail⟩
    -- what follows is what followed before, or a line break
    cases cs with
    | nil => simp [Offside.unifyBreaks] at hd
    | cons e cs =>
      have he := (List.isChain_cons_cons.1 h).1 hc
      by_cases hr : e = '\r'
      · subst hr
        have hd' : d = '\n' := by
          cases cs with
          | nil => simpa [Offside.unifyBreaks] using hd.symm
          | cons f cs =>
            by_cases hf : f = '\n'
            · subst hf
              simpa [Offside.unifyBreaks] using hd.symm
            · rw [unifyBreaks_return (by simp [hf])] at hd
              simpa using hd.symm
        rw [hd']
        decide
      · rw [unifyBreaks_other hr] at hd
        rw [show d = e by simpa using hd.symm]
        exact he

theorem joinText {text next : List Char} (ht : Unmarked text) (hn : Unmarked next) : Unmarked (joinText text next) := by
  have hfront : Unmarked (trimRight text.dropLast) :=
    ht.isInfix ((trimRight_isPrefix text.dropLast).trans (List.dropLast_prefix text)).isInfix
  refine List.isChain_append.2 ⟨List.isChain_append.2 ⟨hfront, by decide, ?_⟩, hn, ?_⟩
  · intro x _ y hy _
    obtain rfl : ',' = y := by simpa using hy
    decide
  · intro x hx y _ hslash
    obtain rfl : ' ' = x := by simpa using hx
    cases hslash

theorem dropLineComments : ∀ {ps : List Placed} (free : Bool), Unmarked (ps.map Prod.fst) →
    dropLineComments Prod.fst free false ps = ps
  | [], _, _ => rfl
  | p :: ps, free, h => by
    have hno : (p.1 == '/' && ps.head?.map Prod.fst == some '/') = false := by
      cases ps with
      | nil => simp
      | cons q ps =>
        have hpq := (List.isChain_cons_cons.1 h).1
        by_cases hp : p.1 = '/'
        · simp [(hpq hp).1]
        · simp [hp]
    have ih := fun free => @dropLineComments ps free h.tail
    rw [Offside.dropLineComments, Bool.and_assoc, hno, ih, ih]
    simp

theorem stripComments {ps : List Placed} (h : Unmarked (ps.map Prod.fst)) : stripComments ps = ps := by
  have hblocks : dropBlocks Prod.fst ps = ps := by
    refine replaceAll_of_none fun u hu => ?_
    have hu' : Comment.markerAt (u.map Prod.fst) = false := (h.isInfix (hu.map Prod.fst).isInfix).markerAt
    unfold blockAt
    split
    · rename_i a b rest
      rw [if_neg]
      intro hab
      rw [Bool.and_eq_true] at hab
      simp [Comment.markerAt, hab.1, hab.2] at hu'
    · rfl
  rw [Offside.stripComments, strip, hblocks, h.dropLineComments]

theorem prepare {source : List Char} (h : Unmarked source) (strip : Bool) : prepare strip source = prepare false source := by
  have hplaced : Unmarked ((place source).map Prod.fst) := by
    rw [place, placeFrom_map_fst]
    exact h.unifyBreaks
  cases strip with
  | false => rfl
  | true => rw [Offside.prepare, Offside.prepare, if_pos rfl, hplaced.stripComments]; rfl

theorem read {text : List Char} (h : Unmarked text) (compact : Bool) :
    Statement.read compact text = Statement.read false text := by
  rw [Statement.read_of_code fun _ => h.codeFrom none false, Statement.read_of_code fun _ => h.codeFrom none false]

theorem logical {source : List Char} (h : Unmarked source) {compact : Bool} {r : Reader}
    (hread : readLines compact (Offside.prepare false source) = (r, .ok ())) : ∀ l ∈ r.logical, Unmarked l.text := by
  refine (readLines_grouped hread).forall_text (fun line hl => ?_) fun text next _ ht hn => ht.joinText hn
  have hplaced : Unmarked ((kept false source).map Prod.fst) := by
    rw [kept, if_neg (by simp), place, placeFrom_map_fst]
    exact h.unifyBreaks
  exact hplaced.isInfix ((trim_isInfix line.text).trans (prepare_isInfix hl))

end Unmarked

theorem Reader.Runs.logical_isPrefix {compact : Bool} {skip : Nat} {r after : Reader} {lines : List Line}
    (h : Runs compact skip r lines after) : r.logical <+: after.logical := by
  have hrun := @logical_readFrom compact skip r lines
  rwa [h.readFrom_eq] at hrun

/-- A run is one in the other mode too, if all that it has read means the same there. -/
theorem Reader.Runs.other_mode {compact other : Bool} {skip : Nat} {r after : Reader} {lines : List Line}
    (h : Runs compact skip r lines after)
    (htexts : ∀ l ∈ after.logical, Statement.read other l.text = Statement.read compact l.text) :
    Runs other skip r lines after := by
  induction h with
  | done => exact .done
  | pass _ ih => exact .pass (ih htexts)
  | blank hb _ ih => exact .blank hb (ih htexts)
  | @step skip r next after line lines hb hs hrest ih =>
    obtain ⟨measured, indent, entered, learned, ind, joined, s, hc, he, hj, hread, rfl, rfl⟩ := step_ok hs
    have hmem : (⟨joined.text, line.offset, indent⟩ : LogicalLine) ∈ after.logical := by
      refine hrest.logical_isPrefix.subset ?_
      cases s <;> exact List.mem_append_right _ List.mem_cons_self
    exact .step hb (step_of_parts hc he hj ((htexts _ hmem).trans hread)) (ih htexts)

/-- **A source without comments is read alike in both modes.** -/
theorem Unmarked.readLines {source : List Char} (h : Unmarked source) {r : Reader}
    (hread : readLines false (Offside.prepare false source) = (r, .ok ())) :
    Offside.readLines true (Offside.prepare true source) = (r, .ok ()) := by
  rw [h.prepare true]
  exact readLines_iff.2 ((readLines_iff.1 hread).other_mode fun l hl => (h.logical hread l hl).read true)

/-! ## Squeezed constants in a text -/

/-- The constants that are put into a text. -/
def literals (get? : List Char → Option (List Char)) (cs : List Char) : List (List Char) :=
  (chunks cs).filterMap (Chunk.literal? get?)

example : literals (fun name => some ('<' :: name)) "a$b-c $ d$$e".toList = ["<b-c".toList, "<e".toList] := by decide

section Squeezed

variable {full short : List Char → Option (List Char)} (h : ∀ name, short name = (full name).map Squeeze.value)
include h

theorem Chunk.text_cases (chunk : Chunk) :
    chunk.text short = chunk.text full ∨
      ∃ lit, chunk.literal? full = some lit ∧ chunk.text full = lit ∧ chunk.text short = Squeeze.value lit := by
  cases chunk with
  | char c => exact Or.inl rfl
  | reference name =>
    cases hname : full name with
    | none => exact Or.inl (by simp [Chunk.text, resolve, h, hname])
    | some lit => exact Or.inr ⟨lit, hname, by simp [Chunk.text, resolve, hname], by simp [Chunk.text, resolve, h, hname]⟩

omit h in
theorem flatMap_changed {R : List Char → List Char → Prop} (hrefl : ∀ a, R a a) (htrans : ∀ {a b c}, R a b → R b c → R a c)
    {t t' : Chunk → List Char} : ∀ {cs : List Chunk}, (∀ chunk ∈ cs, ∀ u w, R (u ++ t' chunk ++ w) (u ++ t chunk ++ w)) →
      ∀ u w, R (u ++ cs.flatMap t' ++ w) (u ++ cs.flatMap t ++ w)
  | [], _, u, w => hrefl _
  | chunk :: cs, hcs, u, w => by
    rw [List.forall_mem_cons] at hcs
    have hfirst := hcs.1 u (cs.flatMap t' ++ w)
    have hrest := flatMap_changed hrefl htrans hcs.2 (u ++ t chunk) w
    simp only [List.flatMap_cons, List.append_assoc] at hfirst hrest ⊢
    exact htrans hfirst hrest

/-- What holds wherever one constant is squeezed holds where all are. -/
theorem chunks_changed {R : List Char → List Char → Prop} (hrefl : ∀ a, R a a) (htrans : ∀ {a b c}, R a b → R b c → R a c)
    {pieces : List Chunk}
    (hpiece : ∀ chunk ∈ pieces, ∀ lit ∈ chunk.literal? full, ∀ u w, R (u ++ Squeeze.value lit ++ w) (u ++ lit ++ w))
    (u w : List Char) :
    R (u ++ pieces.flatMap (Chunk.text short) ++ w) (u ++ pieces.flatMap (Chunk.text full) ++ w) := by
  refine flatMap_changed hrefl htrans (fun chunk hchunk u w => ?_) u w
  rcases chunk.text_cases h with he | ⟨lit, hlit, hfull, hshort⟩
  · rw [he]
    exact hrefl _
  · rw [hfull, hshort]
    exact hpiece chunk hchunk lit hlit u w

variable {raw : List Char} (htrim : ∀ lit ∈ literals full raw, trim lit = lit)
include htrim

theorem value_substitute : Squeeze.value (substitute short raw) = Squeeze.value (substitute full raw) := by
  have hall := chunks_changed h (R := fun a b => Squeeze.value a = Squeeze.value b) (fun _ => rfl) Eq.trans
    (fun chunk hchunk lit hlit => Squeeze.squeeze_piece Squeeze.value_eq_fill
      (htrim lit (List.mem_filterMap.2 ⟨chunk, hchunk, hlit⟩))) [] []
  simpa [substitute_eq] using hall

theorem params_substitute_of_tight (htight : ∀ lit ∈ literals full raw, Squeeze.loose lit = false) :
    Squeeze.params (substitute short raw) = Squeeze.params (substitute full raw) := by
  have hall := chunks_changed h (R := fun a b => Squeeze.params a = Squeeze.params b) (fun _ => rfl) Eq.trans
    (fun chunk hchunk lit hlit =>
      have hmem := List.mem_filterMap.2 ⟨chunk, hchunk, hlit⟩
      Squeeze.params_piece (htrim lit hmem) (htight lit hmem)) [] []
  simpa [substitute_eq] using hall

/-- A loose constant costs a blank, and no other constant brings one back. -/
theorem length_params_substitute {lit : List Char} (hlit : lit ∈ literals full raw) (hloose : Squeeze.loose lit = true) :
    (Squeeze.params (substitute short raw)).length < (Squeeze.params (substitute full raw)).length := by
  obtain ⟨chunk, hchunk, hget⟩ := List.mem_filterMap.1 hlit
  obtain ⟨a, b, hcut⟩ := List.append_of_mem hchunk
  have hshorter : ∀ pieces : List Chunk, (∀ chunk ∈ pieces, chunk ∈ chunks raw) → ∀ u w,
      (Squeeze.params (u ++ pieces.flatMap (Chunk.text short) ++ w)).length ≤
        (Squeeze.params (u ++ pieces.flatMap (Chunk.text full) ++ w)).length := by
    intro pieces hpieces
    refine chunks_changed h (R := fun a b => (Squeeze.params a).length ≤ (Squeeze.params b).length)
      (fun _ => Nat.le_refl _) Nat.le_trans fun chunk hmem l hl u w => ?_
    have htrim' := htrim l (List.mem_filterMap.2 ⟨chunk, hpieces chunk hmem, hl⟩)
    cases hl' : Squeeze.loose l with
    | true => exact Nat.le_of_lt (Squeeze.length_params_piece htrim' hl' u w)
    | false => exact Nat.le_of_eq (congrArg List.length (Squeeze.params_piece htrim' hl' u w))
  obtain ⟨hfull, hshort⟩ : chunk.text full = lit ∧ chunk.text short = Squeeze.value lit := by
    cases chunk with
    | char c => cases hget
    | reference name =>
      have hname : full name = some lit := hget
      simp [Chunk.text, resolve, h, hname]
  -- the chunks before and behind are changed one after the other, then the loose one
  have hbefore := hshorter a (by simp +contextual [hcut]) [] (Squeeze.value lit ++ b.flatMap (Chunk.text short))
  have hbehind := hshorter b (by simp +contextual [hcut]) (a.flatMap (Chunk.text full) ++ Squeeze.value lit) []
  have hpiece := Squeeze.length_params_piece (htrim lit hlit) hloose (a.flatMap (Chunk.text full))
    (b.flatMap (Chunk.text full))
  rw [substitute_eq, substitute_eq, hcut]
  simp only [List.flatMap_append, List.flatMap_cons, hfull, hshort, List.nil_append, List.append_nil, List.append_assoc]
    at hbefore hbehind hpiece ⊢
  omega

/-- **In parameters it shows exactly where a loose constant is put.** -/
theorem params_substitute_iff : Squeeze.params (substitute short raw) = Squeeze.params (substitute full raw) ↔
    ∀ lit ∈ literals full raw, Squeeze.loose lit = false := by
  constructor
  · intro he lit hlit
    by_contra hloose
    have hlt := length_params_substitute h htrim hlit (by simpa using hloose)
    rw [he] at hlt
    exact Nat.lt_irrefl _ hlt
  · exact params_substitute_of_tight h htrim

end Squeezed

/-! ## The two walks -/

/-- Every constant is there, squeezed. -/
structure Env.Squeezed (full short : Env) : Prop where
  here : ∀ name, short.here name = (full.here name).map Squeeze.value
  around : ∀ name, short.around name = (full.around name).map Squeeze.value

/-- The constants that are put into what a statement says. -/
def Statement.literals (env : Env) (s : Statement) : List (List Char) :=
  s.fields?.elim [] fun f => Offside.literals env.get? f.2

section Walk

variable {o o' : Options} (ho : o.compact = false) (ho' : o'.compact = true) {full short : Env}

namespace Env.Squeezed

theorem nothing : Squeezed (.ofScopes [] []) (.ofScopes [] []) := ⟨fun _ => rfl, fun _ => rfl⟩

theorem get? (h : Squeezed full short) (name : List Char) : short.get? name = (full.get? name).map Squeeze.value := by
  rw [Env.get?, Env.get?, h.here, h.around]
  cases full.here name <;> rfl

theorem inside (h : Squeezed full short) : Squeezed full.inside short.inside := ⟨fun _ => rfl, h.get?⟩

theorem define (h : Squeezed full short) (name value : List Char) :
    Squeezed (full.define name value) (short.define name (Squeeze.value value)) := by
  refine ⟨fun n => ?_, h.around⟩
  simp only [Env.define, h.here]
  split
  · cases full.here n <;> rfl
  · rfl

include ho ho'

theorem value (h : Squeezed full short) {raw : List Char} (htrim : ∀ lit ∈ literals full.get? raw, trim lit = lit) :
    o'.value (short.substitute raw) = Squeeze.value (o.value (full.substitute raw)) := by
  rw [Options.value, Options.value, if_pos ho', if_neg (by simp [ho])]
  exact value_substitute h.get? htrim

theorem after (h : Squeezed full short) {item : Leaf}
    (htrim : ∀ lit ∈ (Statement.leaf item).literals full, trim lit = lit) :
    Squeezed (full.after o item) (short.after o' item) := by
  unfold Env.after
  split
  · rename_i name raw comment
    rw [h.value ho ho' htrim]
    exact h.define name _
  · exact h

end Env.Squeezed

include ho ho' in
/-- **The walks go on side by side.** -/
theorem Sheet.seen_squeezed : ∀ (f : Sheet) {full short : Env}, Env.Squeezed full short →
    (∀ p ∈ Sheet.seen o full f, ∀ lit ∈ p.2.literals p.1, trim lit = lit) →
      List.Forall₂ (fun p q => p.2 = q.2 ∧ Env.Squeezed p.1 q.1) (Sheet.seen o full f) (Sheet.seen o' short f)
  | .nil, _, _, _, _ => .nil
  | .leaf item rest, _, _, h, htrim => by
    rw [Sheet.seen, List.forall_mem_cons] at htrim
    exact .cons ⟨rfl, h⟩ (Sheet.seen_squeezed rest (h.after ho ho' htrim.1) htrim.2)
  | .block heading children rest, _, _, h, htrim => by
    rw [Sheet.seen, List.forall_mem_cons, List.forall_mem_append] at htrim
    exact .cons ⟨rfl, h⟩ (List.rel_append (Sheet.seen_squeezed children h.inside htrim.2.1)
      (Sheet.seen_squeezed rest h htrim.2.2))

/-- The parameters of an at-rule as they are written, `full` being those with their references replaced. -/
def Options.params (o : Options) (full : List Char) : List Char := if o.compact then Squeeze.params full else full

/-- What a statement writes behind its name: the value of a declaration or a variable, the parameters of an at-rule. -/
def Statement.text? (o : Options) (env : Env) : Statement → Option (List Char)
  | .leaf (.declare _ value _) => some (o.value (env.substitute value))
  | .leaf (.define _ value false _) => some (o.value (env.substitute value))
  | .heading (.atRule _ params _) => some (o.params (env.substitute params))
  | _ => none

def Statement.squeeze : Statement → List Char → List Char
  | .leaf _ => Squeeze.value
  | .heading _ => Squeeze.params

include ho ho' in
theorem Statement.text?_squeezed (h : Env.Squeezed full short) {s : Statement}
    (htrim : ∀ lit ∈ s.literals full, trim lit = lit) :
    s.text? o' short = (s.text? o full).map s.squeeze ↔
      (s.isHeading = true → ∀ lit ∈ s.literals full, Squeeze.loose lit = false) := by
  cases s with
  | leaf item =>
    refine iff_of_true ?_ fun hh => by cases hh
    cases item with
    | declare property value comment => exact congrArg some (h.value ho ho' htrim)
    | define name value constant comment =>
      cases constant with
      | true => rfl
      | false => exact congrArg some (h.value ho ho' htrim)
    | remark comment => rfl
  | heading heading =>
    cases heading with
    | rule selector comment => exact iff_of_true rfl fun _ lit hlit => by cases hlit
    | atRule name params comment =>
      have hiff := params_substitute_iff h.get? htrim
      simp only [Statement.text?, Statement.squeeze, Options.params, ho, ho', Option.map_some, Option.some.injEq, if_true]
      exact ⟨fun he _ => hiff.1 he, fun hl => hiff.2 (hl rfl)⟩

end Walk

/-! ## What is written -/

/-- The lines that a statement may be written as, with `text` behind its name. -/
inductive Statement.Shows (o : Options) (depth : Nat) (text : List Char) : Statement → List Char → Prop
  | declare {property value : List Char} {comment : Option Comment} :
    Shows o depth text (.leaf (.declare property value comment))
      (o.indentAt depth ++ o.withComment (property ++ o.colon ++ text ++ [';']) comment)
  | define {name value : List Char} {comment : Option Comment} :
    Shows o depth text (.leaf (.define name value false comment))
      (o.indentAt depth ++ o.withComment ('-' :: '-' :: name ++ o.colon ++ text ++ [';']) comment)
  | atRule {name params gap ending : List Char} {comment : Option Comment} (hgap : allBlank gap = true)
      (hend : ending = o.opening ∨ ending = [';']) :
    Shows o depth text (.heading (.atRule name params comment))
      (o.indentAt depth ++ o.withComment ('@' :: name ++ gap ++ text) comment ++ ending)

section Shows

variable {o : Options}

theorem Options.atHeading_eq (env : Env) (name params : List Char) : ∃ gap, allBlank gap = true ∧
    o.atHeading env.substitute name params = '@' :: name ++ gap ++ o.params (env.substitute params) := by
  unfold Options.atHeading Options.params
  split
  · rename_i he
    obtain rfl := List.isEmpty_iff.1 he
    refine ⟨[], rfl, ?_⟩
    cases o.compact <;> simp [Env.substitute, substitute, replaceAll, replaceFrom, show Squeeze.params [] = [] from rfl]
  · cases o.compact with
    | false => exact ⟨[' '], rfl, by simp⟩
    | true =>
      simp only [if_true]
      split
      · rename_i he
        exact ⟨[], rfl, by simp [he]⟩
      · rename_i rest he
        exact ⟨[], rfl, by simp [he]⟩
      · exact ⟨[' '], rfl, by simp⟩

theorem Leaf.exists_shows (root : Bool) {env : Env} {item : Leaf} {text : List Char}
    (h : (Statement.leaf item).text? o env = some text) :
    (∃ entry, item.rootLine? o root env = some entry ∧ Statement.Shows o 0 text (.leaf item) entry) ∨
      ∃ line, item.line? o root env = some line ∧
        ∀ depth, Statement.Shows o depth text (.leaf item) (o.indentAt depth ++ line) := by
  have hzero : o.indentAt 0 = [] := by
    unfold Options.indentAt
    split <;> rfl
  cases item with
  | declare property value comment =>
    cases h
    exact Or.inr ⟨_, rfl, fun _ => .declare⟩
  | define name value constant comment =>
    cases constant with
    | true => cases h
    | false =>
      cases h
      cases root with
      | false => exact Or.inr ⟨_, rfl, fun _ => .define⟩
      | true =>
        refine Or.inl ⟨_, rfl, ?_⟩
        have hshows := @Statement.Shows.define o 0 (o.value (env.substitute value)) name value comment
        rwa [hzero, List.nil_append] at hshows
  | remark comment => cases h

theorem Heading.shows {env : Env} {heading : Heading} {text : List Char} (nested : Bool)
    (h : (Statement.heading heading).text? o env = some text) {ending : List Char}
    (hend : ending = o.opening ∨ ending = [';']) (depth : Nat) :
    Statement.Shows o depth text (.heading heading) (o.indentAt depth ++ o.title env nested heading ++ ending) := by
  cases heading with
  | rule selector comment => cases h
  | atRule name params comment =>
    cases h
    obtain ⟨gap, hgap, he⟩ := o.atHeading_eq env name params
    rw [Options.title, he]
    exact .atRule hgap hend

/-- **Every statement has its line**, with its text in it. -/
theorem exists_shows : ∀ (f : Sheet) (depth : Nat) (nested : Bool) (env : Env), ∀ p ∈ Sheet.seen o env f,
    ∀ text ∈ p.2.text? o p.1, ∃ line, (line ∈ (evaluate o depth nested env f).rootVariables ∨
      line ∈ (evaluate o depth nested env f).lines) ∧ ∃ d, p.2.Shows o d text line
  | .nil, _, _, _, p, hp => by cases hp
  | .leaf item rest, depth, nested, env, p, hp => by
    intro text ht
    obtain ⟨hlines, hroot⟩ := evaluateLeaf_eq o depth nested env item
    simp only [evaluate, Emitted.lines_append, Emitted.rootVariables_append, hlines, hroot, List.mem_append]
    rcases List.mem_cons.1 hp with rfl | hp
    · rcases Leaf.exists_shows (atRoot depth nested) ht with ⟨entry, he, hs⟩ | ⟨line, hl, hs⟩
      · exact ⟨entry, Or.inl (Or.inl (by simp [he])), 0, hs⟩
      · exact ⟨o.indentAt depth ++ line, Or.inr (Or.inl (by simp [hl])), depth, hs depth⟩
    · obtain ⟨line, hl, hs⟩ := exists_shows rest depth nested _ p hp text ht
      exact ⟨line, hl.imp Or.inr Or.inr, hs⟩
  | .block heading children rest, depth, nested, env, p, hp => by
    intro text ht
    simp only [evaluate, Emitted.lines_append, Emitted.rootVariables_append, List.mem_append]
    have hheading : (o.block env.substitute nested heading).heading = o.title env nested heading := by
      rw [Options.block_eq]
    rcases List.mem_cons.1 hp with rfl | hp
    · by_cases hopens : Output.opens heading children = true
      · refine ⟨o.indentAt ((o.block env.substitute nested heading).depth depth) ++ o.title env nested heading ++ o.opening,
          Or.inr (Or.inl ?_), _, Heading.shows nested ht (Or.inl rfl) _⟩
        simp [if_pos hopens, Emitted.ofLines, openLines, hheading]
      · refine ⟨o.indentAt depth ++ o.title env nested heading ++ [';'], Or.inr (Or.inl ?_), depth,
          Heading.shows nested ht (Or.inr rfl) depth⟩
        simp [if_neg hopens, Emitted.ofLines, hheading]
    · rcases List.mem_append.1 hp with hp | hp
      · -- there is something inside, so the block is opened
        have hopens : Output.opens heading children = true := by
          cases children with
          | nil => cases hp
          | _ => cases heading <;> rfl
        obtain ⟨line, hl, hs⟩ := exists_shows children ((o.block env.substitute nested heading).depth depth + 1)
          (o.block env.substitute nested heading).nested env.inside p hp text ht
        refine ⟨line, hl.imp (fun hl => Or.inl ?_) (fun hl => Or.inl ?_), hs⟩
        · simp [if_pos hopens, hl]
        · simp [if_pos hopens, hl]
      · obtain ⟨line, hl, hs⟩ := exists_shows rest depth nested env p hp text ht
        exact ⟨line, hl.imp Or.inr Or.inr, hs⟩

/-- The text of every statement stands in its line of the output. -/
def Compilation.Shows (o : Options) (c : Compilation) : Prop :=
  ∃ out, Output.emit o 0 false c.sheet {} = .ok out ∧ c.css = out.render o ∧
    ∀ p ∈ Sheet.seen o (.ofScopes [] []) c.sheet, ∀ text ∈ p.2.text? o p.1,
      ∃ line, (line ∈ out.rootVariables ∨ line ∈ out.lines) ∧ ∃ depth, p.2.Shows o depth text line

theorem compileAll_shows {source : List Char} {c : Compilation} (h : compileAll o source = .ok c) : c.Shows o := by
  obtain ⟨r, -, rfl⟩ := compileAll_ok h
  obtain ⟨out, hemit, hcss, hlines, hroot⟩ := Output.emit_sheet o r.sheet
  refine ⟨out, hemit, hcss, ?_⟩
  rw [hlines, hroot]
  exact exists_shows r.sheet 0 false _

end Shows

/-- **Compact output against formatted output**, for a source without comments in which no constant that is used begins or
ends with a blank.  Both modes go through the same statements.  The value of every declaration and of every variable
is the formatted one, squeezed; the parameters of an at-rule are so exactly if no loose constant is put into them. -/
theorem compile_squeezes {o : Options} {source : List Char} (hsource : Unmarked source) {full : Compilation}
    (h : compileAll { o with compact := false } source = .ok full)
    (htrim : ∀ p ∈ Sheet.seen { o with compact := false } (.ofScopes [] []) full.sheet,
      ∀ lit ∈ p.2.literals p.1, trim lit = lit) :
    ∃ short, compileAll { o with compact := true } source = .ok short ∧ short.sheet = full.sheet ∧
      full.Shows { o with compact := false } ∧ short.Shows { o with compact := true } ∧
      List.Forall₂ (fun p q => p.2 = q.2 ∧
          (q.2.text? { o with compact := true } q.1 = (p.2.text? { o with compact := false } p.1).map p.2.squeeze ↔
            (p.2.isHeading = true → ∀ lit ∈ p.2.literals p.1, Squeeze.loose lit = false)))
        (Sheet.seen { o with compact := false } (.ofScopes [] []) full.sheet)
        (Sheet.seen { o with compact := true } (.ofScopes [] []) short.sheet) := by
  have hfull := compileAll_shows h
  obtain ⟨r, hread, rfl⟩ := compileAll_ok h
  have hshort : compileAll { o with compact := true } source = .ok
      { lines := prepare true source, logical := r.logical, sheet := r.sheet,
        css := Sheet.css { o with compact := true } r.sheet } := by
    rw [compileAll, hsource.readLines hread]
  refine ⟨_, hshort, rfl, hfull, compileAll_shows hshort, ?_⟩
  have hwalks := @Sheet.seen_squeezed { o with compact := false } { o with compact := true } rfl rfl r.sheet _ _
    .nothing htrim
  refine ((List.forall₂_and_left _ _).2 ⟨htrim, hwalks⟩).imp ?_
  rintro ⟨env, s⟩ ⟨env', s'⟩ ⟨htrim, rfl, hsqueezed⟩
  exact ⟨rfl, Statement.text?_squeezed rfl rfl hsqueezed htrim⟩

/-- Constants in constants, in values, and in parameters: of the two at-rules one gets a loose constant. -/
theorem compile_squeezes_nested : ∃ full short,
    compileAll {}
      "$x: (a) and (b) !const\n$y: f( 1 ) !const\n$z: $y !const\n@media $x\n  a\n    b: $z  $y\n@media $z".toList =
        .ok full ∧
    compileAll { compact := true }
      "$x: (a) and (b) !const\n$y: f( 1 ) !const\n$z: $y !const\n@media $x\n  a\n    b: $z  $y\n@media $z".toList =
        .ok short ∧
    List.Forall₂ (fun p q => p.2 = q.2 ∧ (q.2.text? { compact := true } q.1 = (p.2.text? {} p.1).map p.2.squeeze ↔
        (p.2.isHeading = true → ∀ lit ∈ p.2.literals p.1, Squeeze.loose lit = false)))
      (Sheet.seen {} (.ofScopes [] []) full.sheet) (Sheet.seen { compact := true } (.ofScopes [] []) short.sheet) ∧
    (Sheet.seen {} (.ofScopes [] []) full.sheet).map (fun p => (p.2.literals p.1).any Squeeze.loose) =
      [false, false, false, true, false, false, false] := by
  have hsheet : (compileAll {}
      "$x: (a) and (b) !const\n$y: f( 1 ) !const\n$z: $y !const\n@media $x\n  a\n    b: $z  $y\n@media $z".toList).map
        Compilation.sheet = .ok
        (.leaf (.define ['x'] "(a) and (b)".toList true none) (.leaf (.define ['y'] "f( 1 )".toList true none)
          (.leaf (.define ['z'] "$y".toList true none)
            (.block (.atRule "media".toList "$x".toList none)
              (.block (.rule ['a'] none) (.leaf (.declare ['b'] "$z  $y".toList none) .nil) .nil)
              (.block (.atRule "media".toList "$z".toList none) .nil .nil))))) := by
    decide +kernel
  obtain ⟨full, hfull, hs⟩ := compileAll_of_map hsheet
  obtain ⟨short, hshort, -, -, -, hwalks⟩ :=
    compile_squeezes (o := {}) (by decide +kernel) hfull (by rw [hs]; decide +kernel)
  exact ⟨full, short, hfull, hshort, hwalks, by rw [hs]; decide +kernel⟩

/-- **Putting text into a constant changes how it is squeezed**: the blank behind a bracket that parameters keep is lost,
and so is a blank that an empty constant leaves at the front of another one. -/
theorem compile_not_squeezes :
    compile {} "$x: (a) and (b) !const\n@media $x\n  a\n    b: c".toList =
      .ok "@media (a) and (b) \x7b\n  a \x7b\n    b: c;\n  \x7d\n\x7d\n".toList ∧
    compile { compact := true } "$x: (a) and (b) !const\n@media $x\n  a\n    b: c".toList =
      .ok "@media(a)and (b)\x7ba\x7bb:c;\x7d\x7d".toList ∧
    Squeeze.params "(a) and (b)".toList = "(a) and (b)".toList ∧
    compile {} "$y: !const\n$x: $y 1px !const\na\n  b: c$x".toList = .ok "a \x7b\n  b: c 1px;\n\x7d\n".toList ∧
    compile { compact := true } "$y: !const\n$x: $y 1px !const\na\n  b: c$x".toList = .ok "a\x7bb:c1px;\x7d".toList ∧
    Squeeze.value "c 1px".toList = "c 1px".toList := by
  decide +kernel

end Offside
