import Offside.Proofs.Feeding
import Offside.Proofs.Markers
import Offside.Proofs.Reading

/-!
# The text of a comment

What a line comment says has no influence on the forest that is read, but for two things, as the
comment is looked for only when the lines have been joined: a comma at its end, which joins the next
line to the comment, and a quote that an earlier line has left open, in which there are no comments.
Two readings of lines that differ in the text of one comment stand alike between any two lines
(`Reader.Alike`), and end alike (`readLines_inert`).
-/
namespace Offside

/-! ## Comments without their text -/

/-- Only the kind of the comment is left. -/
def Comment.hush (c : Comment) : Comment := { kind := c.kind, text := [], raw := [] }

def Leaf.hush : Leaf → Leaf
  | .define name value constant comment => .define name value constant (comment.map Comment.hush)
  | .declare property value comment => .declare property value (comment.map Comment.hush)
  | .remark comment => .remark comment.hush

def Heading.hush : Heading → Heading
  | .rule selector comment => .rule selector (comment.map Comment.hush)
  | .atRule name params comment => .atRule name params (comment.map Comment.hush)

def Statement.hush : Statement → Statement
  | .leaf item => .leaf item.hush
  | .heading h => .heading h.hush

/-- The forest with the contents of its comments left out. -/
def Forest.hush : Sheet → Sheet
  | .nil => .nil
  | .leaf item rest => .leaf item.hush rest.hush
  | .block heading children rest => .block heading.hush children.hush rest.hush
  | .foreign item _ => nomatch item

def Frame.hush (frame : Frame) : Frame := { frame with last := frame.last.map Statement.hush }

def Frames.hush (frames : Frames) : Frames := { top := frames.top.hush, below := frames.below.map Frame.hush }

theorem Forest.hush_ne_nil {f : Sheet} (h : f ≠ .nil) : f.hush ≠ .nil := by
  cases f with
  | nil => exact absurd rfl h
  | leaf item rest => simp [hush]
  | block heading children rest => simp [hush]
  | foreign item rest => exact item.elim

theorem Forest.hush_add (s : Statement) : ∀ (f : Sheet) (d : Nat), (f.add d s).hush = f.hush.add d s.hush
  | .nil, _ => by cases s <;> rfl
  | .leaf item rest, d => by rw [add, hush, hush, add, hush_add s rest d]
  | .block heading children rest, d => by
    by_cases hr : rest = .nil
    · subst hr
      cases d with
      | zero => cases s <;> rfl
      | succ d =>
        rw [add, hush, hush_add s children d]
        rfl
    · rw [add_block hr, hush, hush, add_block (hush_ne_nil hr), hush_add s rest d]
  | .foreign item _, _ => nomatch item

namespace Frames

theorem closeFrom_hush (indent : Nat) : ∀ (top : Frame) (below : List Frame),
    closeFrom indent top.hush (below.map Frame.hush) = (closeFrom indent top below).hush
  | _, [] => rfl
  | top, next :: below => by
    rw [List.map_cons, closeFrom, closeFrom]
    by_cases hlt : indent < top.indent
    · rw [if_pos hlt, if_pos (show indent < top.hush.indent from hlt), closeFrom_hush indent next below]
    · rw [if_neg hlt, if_neg (show ¬indent < top.hush.indent from hlt)]
      rfl

theorem mayNest_hush (frame : Frame) : mayNest frame.hush = mayNest frame := by
  unfold mayNest Frame.hush
  cases frame.last with
  | none => rfl
  | some s => cases s <;> rfl

/-- Which block a line finds does not hang on what comments say. -/
theorem enter_hush (frames : Frames) (ind : Indentation) (indent : Nat) :
    frames.hush.enter ind indent = ((frames.enter ind indent).1.hush, (frames.enter ind indent).2) := by
  have hclose : frames.hush.close indent = (frames.close indent).hush := closeFrom_hush indent frames.top frames.below
  have htop : (frames.close indent).hush.top = (frames.close indent).top.hush := rfl
  have hindent : (frames.close indent).top.hush.indent = (frames.close indent).top.indent := rfl
  simp only [enter, hclose, htop, hindent, mayNest_hush]
  split
  · split
    · split <;> rfl
    · rfl
  · split <;> rfl

theorem enter_alike {frames frames' : Frames} (h : frames.hush = frames'.hush) (ind : Indentation) (indent : Nat) :
    (frames.enter ind indent).1.hush = (frames'.enter ind indent).1.hush ∧
      (frames.enter ind indent).2 = (frames'.enter ind indent).2 := by
  have he := enter_hush frames ind indent
  rw [h, enter_hush, Prod.mk.injEq] at he
  exact ⟨he.1.symm, he.2.symm⟩

end Frames

namespace Statement

theorem readDefine_hush (main : List Char) (comment : Option Comment) :
    (readDefine main comment).map hush = readDefine main (comment.map Comment.hush) := by
  unfold readDefine
  split
  · rfl
  · split
    · rfl
    · generalize splitConst _ = value
      rfl

theorem readAtRule_hush (main : List Char) (comment : Option Comment) :
    (readAtRule main comment).map hush = readAtRule main (comment.map Comment.hush) := by
  unfold readAtRule
  simp only
  split <;> rfl

theorem readPlain_hush (main : List Char) (comment : Option Comment) :
    (readPlain main comment).map hush = readPlain main (comment.map Comment.hush) := by
  unfold readPlain
  split
  · rfl
  · simp only
    split
    · split <;> rfl
    · rfl

theorem readMain_hush (main : List Char) (comment : Option Comment) :
    (readMain main comment).map (Option.map hush) = readMain main (comment.map Comment.hush) := by
  have lift : ∀ x y : Except Cause Statement, x.map hush = y → (x.map some).map (Option.map hush) = y.map some := by
    rintro x y rfl
    cases x <;> rfl
  unfold readMain
  split
  · cases comment <;> rfl
  · exact lift _ _ (readDefine_hush _ comment)
  · exact lift _ _ (readAtRule_hush _ comment)
  · exact lift _ _ (readPlain_hush _ comment)

end Statement

/-! ## Texts that differ in their comment -/

namespace Comment

/-- The same text, or texts that differ behind the marker of their comment only. -/
inductive SameCode : List Char → List Char → Prop
  | refl (text : List Char) : SameCode text text
  | behind {main : List Char} {d : Char} {rest : List Char} (h : code (main ++ '/' :: d :: rest) = main)
      (rest' : List Char) : SameCode (main ++ '/' :: d :: rest) (main ++ '/' :: d :: rest')

/-- The search for a marker does not look at what is behind it. -/
theorem codeFrom_behind {d : Char} {rest : List Char} (rest' : List Char) : ∀ {main : List Char} {quote : Option Char}
    {escaped : Bool}, codeFrom quote escaped (main ++ '/' :: d :: rest) = main →
      codeFrom quote escaped (main ++ '/' :: d :: rest') = main
  | [], quote, escaped, h => by
    rw [List.nil_append, codeFrom] at h ⊢
    split at h
    · rename_i hm
      exact if_pos hm
    · cases h
  | c :: main, quote, escaped, h => by
    have hmarker : markerAt (c :: (main ++ '/' :: d :: rest')) = markerAt (c :: (main ++ '/' :: d :: rest)) := by
      cases main <;> rfl
    rw [List.cons_append, codeFrom] at h ⊢
    split at h
    · cases h
    · rename_i hm
      rw [hmarker, if_neg hm, codeFrom_behind rest' (List.cons.inj h).2]

theorem code_behind {main : List Char} {d : Char} {rest : List Char} (h : code (main ++ '/' :: d :: rest) = main)
    (rest' : List Char) : code (main ++ '/' :: d :: rest') = main :=
  codeFrom_behind rest' h

theorem exists_behind {text : List Char} (h : code text ≠ text) :
    ∃ main d rest, text = main ++ '/' :: d :: rest ∧ code text = main ∧ (d = '/' ∨ d = '*') := by
  obtain ⟨d, rest, htail, hd⟩ := exists_tail h
  exact ⟨code text, d, rest, by rw [← htail, code_append_tail], rfl, hd⟩

theorem tail_behind {main : List Char} {d : Char} {rest : List Char} (h : code (main ++ '/' :: d :: rest) = main) :
    tail (main ++ '/' :: d :: rest) = '/' :: d :: rest := by
  rw [tail, h, List.drop_left]

theorem marker_behind {main : List Char} {d : Char} {rest : List Char} (h : code (main ++ '/' :: d :: rest) = main) :
    d = '/' ∨ d = '*' := by
  have hne : code (main ++ '/' :: d :: rest) ≠ main ++ '/' :: d :: rest := by simp [h]
  obtain ⟨e, more, htail, he⟩ := exists_tail hne
  rw [tail_behind h, List.cons.injEq, List.cons.injEq] at htail
  rwa [htail.2.1]

/-- The kind of a comment is in its marker. -/
theorem hush_ofTail (d : Char) (rest rest' : List Char) :
    (ofTail ('/' :: d :: rest)).hush = (ofTail ('/' :: d :: rest')).hush := by
  have hkind : ∀ rest, (ofTail ('/' :: d :: rest)).hush =
      { kind := if d = '/' then .line else .block, text := [], raw := [] } := by
    intro rest
    unfold ofTail
    by_cases hd : d = '/'
    · simp [hd, hush]
    · simp only [List.getElem?_cons_succ, List.getElem?_cons_zero, Option.some_beq_some, beq_iff_eq, if_neg hd]
      split <;> rfl
  rw [hkind, hkind]

end Comment

open Comment

namespace Statement

theorem read_behind {main : List Char} {d : Char} {rest : List Char} (h : code (main ++ '/' :: d :: rest) = main) :
    (read false (main ++ '/' :: d :: rest)).map (Option.map hush) =
      readMain (trim main) (some (ofTail ('/' :: d :: rest)).hush) := by
  have hextract : (extract (main ++ '/' :: d :: rest)).2 = some (ofTail ('/' :: d :: rest)) := by
    rw [extract_eq, if_neg (by simp [h]), tail_behind h]
  rw [read_formatted, trim_extract, hextract, readMain_hush, h, Option.map_some]

/-- **One statement is read from both texts**, or both are refused for one reason. -/
theorem read_sameCode {text text' : List Char} (h : SameCode text text') :
    (∃ cause, read false text = .error cause ∧ read false text' = .error cause) ∨
      ∃ s s', read false text = .ok s ∧ read false text' = .ok s' ∧ s.map hush = s'.map hush := by
  have hmap : (read false text).map (Option.map hush) = (read false text').map (Option.map hush) := by
    cases h with
    | refl => rfl
    | behind h rest' => rw [read_behind h, read_behind (code_behind h rest'), hush_ofTail]
  generalize read false text = x at hmap
  generalize read false text' = x' at hmap
  cases x with
  | error cause =>
    cases x' with
    | error cause' => exact Or.inl ⟨cause, rfl, congrArg Except.error (Except.error.inj hmap).symm⟩
    | ok s' => cases hmap
  | ok s =>
    cases x' with
    | error cause' => cases hmap
    | ok s' => exact Or.inr ⟨s, s', rfl, rfl, Except.ok.inj hmap⟩

end Statement

/-! ## Joining lines -/

/-- The last character of the text is the comma that asks for another line. -/
theorem joinText_behind {main : List Char} {d : Char} {rest : List Char} (hd : d = '/' ∨ d = '*')
    (hcomma : (main ++ '/' :: d :: rest).getLast? = some ',') (next : List Char) :
    ∃ more, joinText (main ++ '/' :: d :: rest) next = main ++ '/' :: d :: more := by
  rcases List.eq_nil_or_concat rest with rfl | ⟨init, last, rfl⟩
  · rcases hd with rfl | rfl <;> simp at hcomma
  · have hslash : isBlank '/' = false := by decide
    have hblank : isBlank d = false := by rcases hd with rfl | rfl <;> decide
    refine ⟨trimRight init ++ [',', ' '] ++ next, ?_⟩
    have hdrop : (main ++ '/' :: d :: (init ++ [last])).dropLast = main ++ '/' :: d :: init := by
      rw [show main ++ '/' :: d :: (init ++ [last]) = (main ++ '/' :: d :: init) ++ [last] by simp, List.dropLast_concat]
    rw [joinText, List.concat_eq_append, hdrop, trimRight_append_cons hslash, trimRight_cons_of_visible hblank]
    simp

/-- Joining the same line to both. -/
theorem Comment.SameCode.joinText_left {text text' : List Char} (h : SameCode text text')
    (hcomma : text.getLast? = some ',') (hcomma' : text'.getLast? = some ',') (next : List Char) :
    SameCode (joinText text next) (joinText text' next) := by
  cases h with
  | refl => exact .refl _
  | behind h rest' =>
    obtain ⟨more, hmore⟩ := joinText_behind (marker_behind h) hcomma next
    obtain ⟨more', hmore'⟩ := joinText_behind (marker_behind h) hcomma' next
    rw [hmore, hmore']
    exact .behind (code_behind h more) more'

/-- Joining both to the same text.  Either it has a comment, and they are a part of it, or their own is found. -/
theorem Comment.SameCode.joinText_right {text next next' : List Char} (h : SameCode next next')
    (hcomma : text.getLast? = some ',') (hclosed : code text = text → quotesClosed text = true) :
    SameCode (joinText text next) (joinText text next') := by
  by_cases hcode : code text = text
  · cases h with
    | refl => exact .refl _
    | @behind main d rest h rest' =>
      have hassoc : ∀ more, joinText text (main ++ more) = joinText text main ++ more := fun more => by simp [joinText]
      have hsearch := (search_joinText hcode (hclosed hcode) hcomma (main ++ '/' :: d :: rest)).1
      rw [h, hassoc] at hsearch
      rw [hassoc, hassoc]
      exact .behind hsearch rest'
  · obtain ⟨main, d, rest, rfl, hmain, hd⟩ := exists_behind hcode
    obtain ⟨more, hmore⟩ := joinText_behind hd hcomma next
    obtain ⟨more', hmore'⟩ := joinText_behind hd hcomma next'
    rw [hmore, hmore']
    exact .behind (code_behind hmain more) more'

theorem getLast?_joinText (text : List Char) {line : List Char} (h : allBlank line = false) :
    (joinText text (trim line)).getLast? = (trim line).getLast? :=
  getLast?_append_trim h _

/-! ## Two readings side by side -/

/-- The same line, as far as its place and its indent go. -/
structure Line.SameFront (line line' : Line) : Prop where
  offset : line.offset = line'.offset
  blank : allBlank line.text = allBlank line'.text
  classify : ∀ (ind : Indentation) (checked : Bool), ind.classify checked line.text = ind.classify checked line'.text

theorem Line.SameFront.refl (line : Line) : line.SameFront line := ⟨rfl, rfl, fun _ _ => rfl⟩

/-- What is known in the one case and in the other makes no difference to the line. -/
def Line.Blind (line : Line) (ind ind' : Indentation) : Prop :=
  (allBlank line.text = true → ind = ind') ∧ ind.classify true line.text = ind'.classify true line.text

namespace Reader

/-- Readers that have built the same, up to what comments say. -/
structure Hushed (r r' : Reader) : Prop where
  frames : r.frames.hush = r'.frames.hush
  sheet : r.sheet.hush = r'.sheet.hush

/-- Readings that differ in what comments say, the open texts being related by `R`. -/
inductive Alike (R : List Char → List Char → Prop) : Progress → Progress → Prop
  | stopped {r r' : Reader} (h : r.Hushed r') (fault : Fault) : Alike R (r, .error fault) (r', .error fault)
  | idle {r r' : Reader} (h : r.Hushed r') (hind : r.indentation = r'.indentation) :
      Alike R (r, .ok none) (r', .ok none)
  | reading {r r' : Reader} {text text' : List Char} (h : r.Hushed r') (hind : r.indentation = r'.indentation)
      (htext : R text text') (offset indent : Nat) :
      Alike R (r, .ok (some { text := text, offset := offset, indent := indent }))
        (r', .ok (some { text := text', offset := offset, indent := indent }))

theorem Alike.mono {R R' : List Char → List Char → Prop} {p p' : Progress} (h : Alike R p p')
    (hR : ∀ text text', R text text' → R' text text') : Alike R' p p' := by
  cases h with
  | stopped h fault => exact .stopped h fault
  | idle h hind => exact .idle h hind
  | reading h hind htext offset indent => exact .reading h hind (hR _ _ htext) offset indent

namespace Hushed

variable {r r' : Reader}

theorem take (h : r.Hushed r') {s s' : Option Statement} (hs : s.map Statement.hush = s'.map Statement.hush) :
    (r.take s).Hushed (r'.take s') := by
  have hframes := h.frames
  simp only [Frames.hush, Frames.mk.injEq, Frame.hush, Frame.mk.injEq] at hframes
  cases s with
  | none =>
    cases s' with
    | none => exact h
    | some t => cases hs
  | some s =>
    cases s' with
    | none => cases hs
    | some t =>
      have hst : s.hush = t.hush := Option.some.inj hs
      have hdepth : r.frames.depth = r'.frames.depth := by
        simpa [Frames.depth] using congrArg List.length hframes.2
      constructor
      · simp [Reader.take, Frames.record, Frames.hush, Frame.hush, hframes, hst]
      · rw [Reader.take, Reader.take, Forest.hush_add, Forest.hush_add, h.sheet, hdepth, hst]

theorem close (h : r.Hushed r') {text text' : List Char} (htext : SameCode text text') (offset indent : Nat) :
    (r.close false { text := text, offset := offset, indent := indent }).1.Hushed
        (r'.close false { text := text', offset := offset, indent := indent }).1 ∧
      (r.close false { text := text, offset := offset, indent := indent }).2 =
        (r'.close false { text := text', offset := offset, indent := indent }).2 := by
  unfold Reader.close
  rcases Statement.read_sameCode htext with ⟨cause, hs, hs'⟩ | ⟨s, s', hs, hs', hhush⟩
  · rw [hs, hs']
    exact ⟨⟨h.frames, h.sheet⟩, rfl⟩
  · rw [hs, hs']
    refine ⟨take ?_ hhush, rfl⟩
    exact ⟨h.frames, h.sheet⟩

theorem start {R : List Char → List Char → Prop} (h : r.Hushed r') {line line' : Line} (hline : line.SameFront line')
    (hind : line.Blind r.indentation r'.indentation)
    (htext : allBlank line.text = false → R (trim line.text) (trim line'.text)) :
    Alike R (r.start line) (r'.start line') := by
  unfold Reader.start
  rw [← hline.blank, ← hline.classify, ← hline.offset, ← hind.2]
  by_cases hblank : allBlank line.text = true
  · rw [if_pos hblank, if_pos hblank]
    exact .idle h (hind.1 hblank)
  · rw [if_neg hblank, if_neg hblank]
    cases r.indentation.classify true line.text with
    | mk ind result =>
      cases result with
      | error cause =>
        refine .stopped ?_ _
        exact ⟨h.frames, h.sheet⟩
      | ok indent =>
        obtain ⟨hframes, hfound⟩ := Frames.enter_alike h.frames ind indent
        simp only
        generalize r.frames.enter ind indent = entered at hframes hfound ⊢
        generalize r'.frames.enter ind indent = entered' at hframes hfound ⊢
        obtain ⟨frames, learned, found⟩ := entered
        obtain ⟨frames', found'⟩ := entered'
        obtain rfl : (learned, found) = found' := hfound
        cases found with
        | error cause =>
          refine .stopped ?_ _
          exact ⟨hframes, h.sheet⟩
        | ok _ =>
          refine .reading ?_ ?_ (htext (by simpa using hblank)) _ _
          · exact ⟨hframes, h.sheet⟩
          · rfl

theorem closeAndStart {R : List Char → List Char → Prop} (h : r.Hushed r') {text text' : List Char}
    (hclose : SameCode text text') (offset indent : Nat) {line line' : Line} (hline : line.SameFront line')
    (hind : line.Blind r.indentation r'.indentation)
    (htext : allBlank line.text = false → R (trim line.text) (trim line'.text)) :
    Alike R (r.closeAndStart false { text := text, offset := offset, indent := indent } line)
      (r'.closeAndStart false { text := text', offset := offset, indent := indent } line') := by
  obtain ⟨hnext, hend⟩ := h.close hclose offset indent
  rw [← @indentation_close false r { text := text, offset := offset, indent := indent },
    ← @indentation_close false r' { text := text', offset := offset, indent := indent }] at hind
  unfold Reader.closeAndStart
  generalize r.close false _ = p at hnext hend hind ⊢
  generalize r'.close false _ = p' at hnext hend hind ⊢
  obtain ⟨next, result⟩ := p
  obtain ⟨next', result'⟩ := p'
  obtain rfl : result = result' := hend
  cases result with
  | error fault => exact .stopped hnext fault
  | ok _ => exact hnext.start hline hind htext

end Hushed

/-- **One line more**: where commas agree, the texts that are open afterwards are both joined or both new. -/
theorem Alike.feed {R R' : List Char → List Char → Prop} {p p' : Progress} (h : Alike R p p') {line line' : Line}
    (hline : line.SameFront line')
    (hclose : ∀ text text', R text text' →
      SameCode text text' ∧ (text.getLast? = some ',' ↔ text'.getLast? = some ','))
    (hstart : allBlank line.text = false → R' (trim line.text) (trim line'.text))
    (hjoin : ∀ text text', R text text' → text.getLast? = some ',' → allBlank line.text = false →
      R' (joinText text (trim line.text)) (joinText text' (trim line'.text))) :
    Alike R' (Reader.feed false p line) (Reader.feed false p' line') := by
  cases h with
  | stopped h fault => exact .stopped h fault
  | idle h hind =>
    exact h.start hline ⟨fun _ => hind, by rw [hind]⟩ hstart
  | @reading r r' text text' h hind htext offset indent =>
    obtain ⟨hsame, hcomma⟩ := hclose text text' htext
    have hends : (text.getLast? == some ',') = (text'.getLast? == some ',') := by
      rw [Bool.eq_iff_iff, beq_iff_eq, beq_iff_eq, hcomma]
    simp only [Reader.feed, ← hends, ← hline.blank, ← hline.classify, ← hline.offset, ← hind]
    by_cases hgo : (text.getLast? == some ',' && !allBlank line.text) = true
    · rw [if_pos hgo, if_pos hgo]
      rw [Bool.and_eq_true, beq_iff_eq, Bool.not_eq_true'] at hgo
      cases r.indentation.classify false line.text with
      | mk ind result =>
        cases result with
        | error cause =>
          refine .stopped ?_ _
          exact ⟨h.frames, h.sheet⟩
        | ok found =>
          simp only
          by_cases hfound : found = indent
          · rw [if_pos hfound, if_pos hfound]
            refine .reading ?_ ?_ (hjoin text text' htext hgo.1 hgo.2) offset indent
            · exact ⟨h.frames, h.sheet⟩
            · rfl
          · rw [if_neg hfound, if_neg hfound]
            refine Hushed.closeAndStart ?_ hsame offset indent hline ⟨fun _ => rfl, rfl⟩ hstart
            exact ⟨h.frames, h.sheet⟩
    · rw [if_neg hgo, if_neg hgo]
      exact h.closeAndStart hsame offset indent hline ⟨fun _ => hind, by rw [hind]⟩ hstart

theorem Alike.finish {R : List Char → List Char → Prop} {p p' : Progress} (h : Alike R p p')
    (hR : ∀ text text', R text text' → SameCode text text') :
    (Reader.finish false p).1.Hushed (Reader.finish false p').1 ∧
      (Reader.finish false p).2 = (Reader.finish false p').2 := by
  cases h with
  | stopped h fault => exact ⟨h, rfl⟩
  | idle h hind => exact ⟨h, rfl⟩
  | reading h hind htext offset indent => exact h.close (hR _ _ htext) offset indent

/-- Texts that differ in their comment and go on alike. -/
def SameEnd (text text' : List Char) : Prop :=
  SameCode text text' ∧ (text.getLast? = some ',' ↔ text'.getLast? = some ',')

/-- **The lines behind**, which are the same for both. -/
theorem Alike.foldl_feed {lines : List Line} {p p' : Progress} (h : Alike SameEnd p p') :
    Alike SameEnd (lines.foldl (Reader.feed false) p) (lines.foldl (Reader.feed false) p') := by
  induction lines generalizing p p' with
  | nil => exact h
  | cons line lines ih =>
    refine ih (h.feed (.refl line) (fun _ _ => id) (fun _ => ⟨.refl _, Iff.rfl⟩) fun text text' hsame hcomma hline => ?_)
    exact ⟨hsame.1.joinText_left hcomma (hsame.2.1 hcomma) _,
      by rw [getLast?_joinText _ hline, getLast?_joinText _ hline]⟩

/-- The line is blank, or its indent is not the one of the last logical line: it does not go on with it. -/
def Parts (r : Reader) (line : Line) : Prop :=
  allBlank line.text = true ∨ ∃ learned found,
    r.indentation.classify false line.text = (learned, .ok found) ∧ ∀ l ∈ r.logical.getLast?, found ≠ l.indent

theorem feed_parts {compact : Bool} {r : Reader} {l : LogicalLine} {line : Line}
    (h : allBlank line.text = true ∨ ∃ learned found,
      r.indentation.classify false line.text = (learned, .ok found) ∧ found ≠ l.indent) :
    ∃ ind, Reader.feed compact (r, .ok (some l)) line =
      closeAndStart compact { r with indentation := ind } l line ∧ line.Blind ind r.indentation := by
  unfold Reader.feed
  simp only
  split
  · rename_i hgo
    simp only [Bool.and_eq_true, Bool.not_eq_true'] at hgo
    rcases h with h | ⟨learned, found, hc, hne⟩
    · simp [h] at hgo
    · rw [hc]
      simp only [if_neg hne]
      exact ⟨learned, rfl, fun hb => by simp [hb] at hgo, Indentation.classify_again hc true⟩
  · exact ⟨r.indentation, rfl, fun _ => rfl, rfl⟩

/-- A line that goes on with neither text. -/
theorem Alike.feed_parts {R : List Char → List Char → Prop} {p p' : Progress} (h : Alike R p p')
    (hR : ∀ text text', R text text' → SameCode text text') {line : Line}
    (hparts : (Reader.finish false p).1.Parts line) :
    Alike SameEnd (Reader.feed false p line) (Reader.feed false p' line) := by
  cases h with
  | stopped h fault => exact .stopped h fault
  | idle h hind => exact h.start (.refl line) ⟨fun _ => hind, by rw [hind]⟩ fun _ => ⟨.refl _, Iff.rfl⟩
  | @reading r r' text text' h hind htext offset indent =>
    rw [Reader.finish, Parts, logical_close, indentation_close, List.getLast?_concat] at hparts
    have hparts : allBlank line.text = true ∨ ∃ learned found,
        r.indentation.classify false line.text = (learned, .ok found) ∧ found ≠ indent :=
      hparts.imp_right fun ⟨learned, found, hc, hne⟩ => ⟨learned, found, hc, hne _ rfl⟩
    obtain ⟨ind, hfeed, hblind⟩ :=
      @Reader.feed_parts false r { text := text, offset := offset, indent := indent } _ hparts
    rw [hind] at hparts
    obtain ⟨ind', hfeed', hblind'⟩ :=
      @Reader.feed_parts false r' { text := text', offset := offset, indent := indent } _ hparts
    rw [hfeed, hfeed']
    rw [hind] at hblind
    refine Hushed.closeAndStart ?_ (hR _ _ htext) offset indent (.refl line) ?_ fun _ => ⟨.refl _, Iff.rfl⟩
    · exact ⟨h.frames, h.sheet⟩
    · exact ⟨fun hb => (hblind.1 hb).trans (hblind'.1 hb).symm, hblind.2.trans hblind'.2.symm⟩

end Reader

/-! ## Line comments -/

theorem trim_line (main body : List Char) :
    trim (main ++ '/' :: '/' :: body) = trimLeft main ++ '/' :: '/' :: trimRight body := by
  have hslash : isBlank '/' = false := by decide
  rw [trim, trimLeft_append_cons hslash, trimRight_append_cons hslash, trimRight_cons_of_visible hslash]

theorem getLast?_line (main body : List Char) :
    (main ++ '/' :: '/' :: body).getLast? = some ',' ↔ body.getLast? = some ',' := by
  rw [List.getLast?_append_of_ne_nil _ (by simp), List.getLast?_cons_cons, List.getLast?_cons]
  cases body.getLast? <;> simp

theorem Comment.code_of_start? {main rest : List Char} (h : start? (main ++ rest) = some main.length) :
    code (main ++ rest) = main := by
  rw [start?_eq] at h
  split at h
  · cases h
  · have htake := List.prefix_iff_eq_take.1 (codeFrom_isPrefix none false (main ++ rest))
    rwa [show (codeFrom none false (main ++ rest)).length = main.length from Option.some.inj h, List.take_left] at htake

theorem Comment.code_trimLeft {main rest : List Char} (h : code (main ++ rest) = main) :
    code (trimLeft main ++ rest) = trimLeft main := by
  obtain ⟨blanks, hblanks, hmain⟩ := exists_append_trimLeft main
  generalize trimLeft main = t at hmain ⊢
  rw [hmain, List.append_assoc, code_blank_append hblanks] at h
  exact List.append_cancel_left h

/-- The line with a line comment at its end. -/
def Line.commented (main body : List Char) (offset : Nat) : Line :=
  { text := main ++ '/' :: '/' :: body, offset := offset }

theorem Line.allBlank_commented (main body : List Char) (offset : Nat) :
    allBlank (Line.commented main body offset).text = false := by
  simp [Line.commented, allBlank, show isBlank '/' = false by decide]

theorem Line.sameFront_commented (main body body' : List Char) (offset : Nat) :
    (Line.commented main body offset).SameFront (Line.commented main body' offset) where
  offset := rfl
  blank := by rw [allBlank_commented, allBlank_commented]
  classify := by
    have hvisible : allBlank (main ++ ['/']) = false := by simp [allBlank, show isBlank '/' = false by decide]
    have hrun : ∀ body, leadingRun (main ++ '/' :: '/' :: body) = leadingRun (main ++ ['/']) := by
      intro body
      rw [← Indentation.leadingRun_append hvisible ('/' :: body), List.append_assoc]
      rfl
    exact Indentation.classify_congr ((hrun body).trans (hrun body').symm)

theorem Line.sameCode_commented {main body : List Char} (h : code (main ++ '/' :: '/' :: body) = main)
    (body' : List Char) (offset : Nat) :
    SameCode (trim (Line.commented main body offset).text) (trim (Line.commented main body' offset).text) := by
  rw [commented, commented, trim_line, trim_line]
  exact .behind (code_behind (code_trimLeft h) _) _

/-- A text that asks for another line, and has no comment, leaves no quote open. -/
def Comment.Settled (text : List Char) : Prop :=
  text.getLast? = some ',' → start? text = none → quotesClosed text = true

theorem Reader.Alike.self {P : List Char → Prop} {p : Progress}
    (h : ∀ l ∈ (Reader.finish false p).1.logical.getLast?, P l.text) :
    Alike (fun text text' => text = text' ∧ P text) p p := by
  obtain ⟨r, result⟩ := p
  cases result with
  | error fault => exact .stopped ⟨rfl, rfl⟩ fault
  | ok l =>
    cases l with
    | none => exact .idle ⟨rfl, rfl⟩ rfl
    | some l =>
      refine .reading ⟨rfl, rfl⟩ rfl ⟨rfl, h l ?_⟩ l.offset l.indent
      rw [Reader.finish, logical_close, List.getLast?_concat]
      rfl

/-- **The swapped line.**  What is open behind it ends with it. -/
theorem Reader.alike_commented {main body body' : List Char} {offset : Nat} {p : Progress}
    (hcode : code (main ++ '/' :: '/' :: body) = main)
    (hquotes : ∀ l ∈ (finish false p).1.logical.getLast?, Settled l.text) :
    Alike (fun text text' => SameCode text text' ∧
        (text.getLast? = some ',' ↔ (trimRight body).getLast? = some ',') ∧
        (text'.getLast? = some ',' ↔ (trimRight body').getLast? = some ','))
      (feed false p (.commented main body offset)) (feed false p (.commented main body' offset)) := by
  have hsame := Line.sameCode_commented hcode body' offset
  have hend : ∀ body, (trim (Line.commented main body offset).text).getLast? = some ',' ↔
      (trimRight body).getLast? = some ',' := by
    intro body
    rw [Line.commented, trim_line, getLast?_line]
  refine (Alike.self hquotes).feed (Line.sameFront_commented main body body' offset) ?_ ?_ ?_
  · rintro text _ ⟨rfl, -⟩
    exact ⟨.refl text, Iff.rfl⟩
  · exact fun _ => ⟨hsame, hend body, hend body'⟩
  · rintro text _ ⟨rfl, hsettled⟩ hcomma -
    have hclosed : code text = text → quotesClosed text = true := fun h =>
      hsettled hcomma (by rw [start?_eq, if_pos h])
    refine ⟨hsame.joinText_right hcomma hclosed, ?_, ?_⟩
    · rw [getLast?_joinText _ (Line.allBlank_commented main body offset), hend]
    · rw [getLast?_joinText _ (Line.allBlank_commented main body' offset), hend]

/-- **What a line comment says is inert**, if no quote is open where its line is joined to one before, and the next line
is joined to both comments or to none. -/
theorem readLines_inert {before after : List Line} {main body body' : List Char} {offset : Nat}
    (hmarker : Comment.start? (Line.commented main body offset).text = some main.length)
    (hquotes : ∀ l ∈ (readLines false before).1.logical.getLast?, Comment.Settled l.text)
    (hcomma : ((trimRight body).getLast? = some ',' ↔ (trimRight body').getLast? = some ',') ∨
      ∀ next ∈ after.head?, (readLines false (before ++ [.commented main body offset])).1.Parts next) :
    let read body := readLines false (before ++ .commented main body offset :: after)
    (read body).2 = (read body').2 ∧ (read body).1.sheet.hush = (read body').1.sheet.hush := by
  simp only [readLines_eq_feed, List.foldl_append, List.foldl_cons, List.foldl_nil] at hquotes hcomma ⊢
  have hswapped := @Reader.alike_commented _ _ body' offset _ (Comment.code_of_start? hmarker) hquotes
  generalize Reader.feed false _ (.commented main body offset) = p at hswapped hcomma ⊢
  generalize Reader.feed false _ (.commented main body' offset) = p' at hswapped ⊢
  have hbehind : Reader.Alike Reader.SameEnd p p' ∨ ∀ next ∈ after.head?, (Reader.finish false p).1.Parts next :=
    hcomma.imp_left fun hiff => hswapped.mono fun _ _ h => ⟨h.1, by rw [h.2.1, h.2.2, hiff]⟩
  obtain ⟨hhushed, hend⟩ : (Reader.finish false (after.foldl (Reader.feed false) p)).1.Hushed
        (Reader.finish false (after.foldl (Reader.feed false) p')).1 ∧
      (Reader.finish false (after.foldl (Reader.feed false) p)).2 =
        (Reader.finish false (after.foldl (Reader.feed false) p')).2 := by
    rcases hbehind with hsame | hparts
    · exact hsame.foldl_feed.finish fun _ _ => And.left
    · cases after with
      | nil => exact hswapped.finish fun _ _ => And.left
      | cons next more =>
        exact (hswapped.feed_parts (fun _ _ => And.left) (hparts next rfl)).foldl_feed.finish fun _ _ => And.left
  exact ⟨hend, hhushed.sheet⟩

/-- One comment ends with a comma, but the next line is nested; the line before has a comma in quotes and one at its end. -/
theorem readLines_inert_nested :
    let read body := readLines false ([{ text := "a[b=\"c,\"],".toList, offset := 0 }] ++
      .commented "d ".toList body 10 :: [{ text := "  e: f".toList, offset := 20 }])
    (read " \" ; $x,".toList).2 = .ok () ∧ (read " \" ; $x,".toList).2 = (read " g".toList).2 ∧
      (read " \" ; $x,".toList).1.sheet.hush = (read " g".toList).1.sheet.hush := by
  refine ⟨by decide +kernel, readLines_inert (by decide) ?_ (Or.inr ?_)⟩
  · intro l hl
    have hlast : (readLines false [{ text := "a[b=\"c,\"],".toList, offset := 0 }]).1.logical.getLast? =
        some { text := "a[b=\"c,\"],".toList, offset := 0, indent := 0 } := by decide +kernel
    cases hlast.symm.trans hl
    exact fun _ _ => by decide
  · intro next hnext
    obtain rfl : { text := "  e: f".toList, offset := 20 } = next := Option.some.inj hnext
    exact Or.inr ⟨{ style := some .space }, 2, by decide +kernel, by decide +kernel⟩

/-- Without the two conditions: a comma at the end of the comment takes the next rule in, and in a quote that is left
open the comment is a part of the selector. -/
theorem readLines_not_inert :
    let comma body := readLines false [.commented "a ".toList body 0, { text := "b".toList, offset := 8 }]
    let quote body := readLines false [{ text := "a \"x,".toList, offset := 0 }, .commented "b ".toList body 6]
    (comma " x,".toList).1.sheet.hush ≠ (comma " x".toList).1.sheet.hush ∧
      (quote " c\"".toList).1.sheet.hush ≠ (quote " d\"".toList).1.sheet.hush := by
  decide +kernel

end Offside
