import Offside.Proofs.Feeding
import Offside.Proofs.Indent
import Offside.Proofs.Visible

/-!
# The lines of a file, divided among its logical lines

The lines that are not blank fall into intervals, and each logical line is one interval put together
(`Interval`).  The division is said as a relation (`Divided`) that goes through the lines from the
first to the last: a line is blank, or an interval begins with it.  What a line is measured at depends
on what has been learned by then, that is, on the lines before it (`indentAfter`).
-/
namespace Offside

/-- What a line is measured at, once the lines before it have been read. -/
def indentAfter (compact : Bool) (before : List Line) (line : Line) : Except Cause Nat :=
  ((readLines compact before).1.indentation.measure line.text).map Prod.fst

/-- **Lines that were put together**, the first one and those that go on with it, into the logical line `l`. -/
structure Joint (compact : Bool) (before : List Line) (first : Line) (more : List Line) (l : LogicalLine) : Prop where
  not_blank : ∀ line ∈ first :: more, allBlank line.text = false
  offset : l.offset = first.offset
  indent : indentAfter compact before first = .ok l.indent
  text : visible l.text = (first :: more).flatMap fun line => visible line.text
  ends : ∀ last ∈ (first :: more).getLast?, l.text.getLast? = (trim last.text).getLast?
  commas : ∀ line ∈ (first :: more).dropLast, (trim line.text).getLast? = some ','
  level : ∀ front line, front ++ [line] <+: more →
    indentAfter compact (before ++ first :: front) line = .ok l.indent

/-- Why no other line goes on with these: the last one does not ask for it, or the next one is missing, is blank or is
measured at another indent than the first. -/
def Stops (compact : Bool) (before : List Line) (first : Line) (more behind : List Line) (l : LogicalLine) : Prop :=
  (∀ last ∈ (first :: more).getLast?, (trim last.text).getLast? ≠ some ',') ∨
    ∀ next ∈ behind.head?, allBlank next.text = true ∨
      ∃ found, indentAfter compact (before ++ first :: more) next = .ok found ∧ found ≠ l.indent

structure Interval (compact : Bool) (before : List Line) (first : Line) (more behind : List Line) (l : LogicalLine) : Prop
    extends Joint compact before first more l where
  stops : Stops compact before first more behind l

/-- **How the lines behind `before` are divided**: blank lines apart, into intervals, one for each logical line. -/
inductive Divided (compact : Bool) : (before lines : List Line) → List LogicalLine → Prop
  | done {before : List Line} : Divided compact before [] []
  | blank {before lines : List Line} {line : Line} {logical : List LogicalLine} (hb : allBlank line.text = true)
      (h : Divided compact (before ++ [line]) lines logical) : Divided compact before (line :: lines) logical
  | interval {before more behind : List Line} {first : Line} {l : LogicalLine} {logical : List LogicalLine}
      (hl : Interval compact before first more behind l) (h : Divided compact (before ++ first :: more) behind logical) :
      Divided compact before (first :: more ++ behind) (l :: logical)

namespace Reader

variable {compact : Bool}

def after (compact : Bool) (lines : List Line) : Progress := lines.foldl (feed compact) ({}, .ok none)

theorem after_concat (lines : List Line) (line : Line) :
    after compact (lines ++ [line]) = feed compact (after compact lines) line :=
  List.foldl_append ..

theorem indentation_finish (p : Progress) : (finish compact p).1.indentation = p.1.indentation := by
  obtain ⟨r, result⟩ := p
  cases result with
  | error fault => rfl
  | ok l =>
    cases l with
    | none => rfl
    | some l => exact indentation_close r l

theorem indentation_after (lines : List Line) :
    (readLines compact lines).1.indentation = (after compact lines).1.indentation := by
  rw [readLines_eq_feed, indentation_finish, after]

theorem indentAfter_of_classify {before : List Line} {line : Line} {checked : Bool} {ind : Indentation} {found : Nat}
    (h : (after compact before).1.indentation.classify checked line.text = (ind, .ok found)) :
    indentAfter compact before line = .ok found := by
  obtain ⟨used, hm, -, -⟩ := Indentation.classify_ok h
  rw [indentAfter, indentation_after, hm]
  rfl

end Reader

theorem visible_joinText {text : List Char} (h : text.getLast? = some ',') (next : List Char) :
    visible (joinText text next) = visible text ++ visible next := by
  obtain ⟨init, rfl⟩ := List.getLast?_eq_some_iff.1 h
  rw [joinText, List.dropLast_concat]
  simp only [visible_append, visible_trimRight, List.append_assoc]
  rfl

open Reader

section

variable {compact : Bool} {before : List Line} {first : Line} {more : List Line} {l : LogicalLine}

theorem Joint.start (hb : allBlank first.text = false) {indent : Nat} (hi : indentAfter compact before first = .ok indent) :
    Joint compact before first [] { text := trim first.text, offset := first.offset, indent := indent } where
  not_blank := by simpa using hb
  offset := rfl
  indent := hi
  text := by simp
  ends := by simp
  commas := by simp
  level front line h := by simp at h

theorem Joint.join (h : Joint compact before first more l) {line : Line} (hcomma : l.text.getLast? = some ',')
    (hb : allBlank line.text = false) (hi : indentAfter compact (before ++ first :: more) line = .ok l.indent) :
    Joint compact before first (more ++ [line]) { l with text := joinText l.text (trim line.text) } where
  not_blank := by
    rw [← List.cons_append, List.forall_mem_append]
    exact ⟨h.not_blank, by simpa using hb⟩
  offset := h.offset
  indent := h.indent
  text := by
    rw [visible_joinText hcomma, h.text, ← List.cons_append, List.flatMap_append]
    simp
  ends := by
    rw [← List.cons_append, List.getLast?_concat]
    rintro last hlast
    cases hlast
    exact getLast?_append_trim hb _
  commas := by
    rw [← List.cons_append, List.dropLast_concat]
    -- the last line so far ends as the text does, the others were followed before
    intro prev hprev
    rw [← List.dropLast_append_getLast (List.cons_ne_nil first more), List.mem_append, List.mem_singleton] at hprev
    rcases hprev with hprev | rfl
    · exact h.commas prev hprev
    · rw [← h.ends _ (List.getLast?_eq_some_getLast _), hcomma]
  level front next hp := by
    rcases List.prefix_concat_iff.1 hp with he | hp
    · obtain ⟨rfl, hlast⟩ := List.append_inj' he rfl
      rw [List.singleton_inj.1 hlast]
      exact hi
    · exact h.level front next hp

end

/-- How the lines that are still to be read are divided, `l?` being open after those that were read: an open logical line
has an interval that began before. -/
def Ahead (compact : Bool) (read : List Line) : Option LogicalLine → (lines : List Line) → List LogicalLine → Prop
  | none, lines, logical => Divided compact read lines logical
  | some l, lines, logical => ∀ before first more, read = before ++ first :: more → Joint compact before first more l →
      Divided compact before (first :: more ++ lines) logical

section

variable {compact : Bool} {read lines : List Line} {line : Line} {logical : List LogicalLine}

theorem Ahead.start {r next : Reader} {l? : Option LogicalLine} (h : Ahead compact (read ++ [line]) l? lines logical)
    (hstart : r.start line = (next, .ok l?))
    (hind : r.indentation.classify true line.text = (after compact read).1.indentation.classify true line.text) :
    Divided compact read (line :: lines) logical ∧ next.logical = r.logical := by
  rcases start_ok hstart with ⟨hb, rfl, rfl⟩ | ⟨hb, measured, indent, _, _, hc, -, rfl, rfl⟩
  · exact ⟨.blank hb h, rfl⟩
  · rw [hind] at hc
    exact ⟨h read line [] rfl (.start hb (indentAfter_of_classify hc)), rfl⟩

/-- The next line goes on with the open one: the interval is one line longer. -/
theorem Ahead.join {l : LogicalLine} {ind : Indentation}
    (h : Ahead compact (read ++ [line]) (some { l with text := joinText l.text (trim line.text) }) lines logical)
    (hcomma : l.text.getLast? = some ',') (hb : allBlank line.text = false)
    (hc : (after compact read).1.indentation.classify false line.text = (ind, .ok l.indent)) :
    Ahead compact read (some l) (line :: lines) logical := by
  intro before first more hread hjoint
  have hi : indentAfter compact (before ++ first :: more) line = .ok l.indent := hread ▸ indentAfter_of_classify hc
  have := h before first (more ++ [line]) (by rw [hread]; simp) (hjoint.join hcomma hb hi)
  simpa using this

/-- The next line does not go on with the open one: the interval ends before it. -/
theorem Ahead.close {l : LogicalLine} (h : Divided compact read lines logical)
    (hstop : ∀ before first more, read = before ++ first :: more → Joint compact before first more l →
      Stops compact before first more lines l) :
    Ahead compact read (some l) lines (l :: logical) := by
  intro before first more hread hjoint
  exact .interval ⟨hjoint, hstop before first more hread hjoint⟩ (hread ▸ h)

end

/-- **The lines that are still to be read are divided among the logical lines that reading them adds.** -/
theorem exists_ahead {compact : Bool} : ∀ (lines read : List Line) {r last : Reader} {l? : Option LogicalLine},
    after compact read = (r, .ok l?) → finish compact (lines.foldl (feed compact) (r, .ok l?)) = (last, .ok ()) →
      ∃ logical, last.logical = r.logical ++ logical ∧ Ahead compact read l? lines logical
  | [], read, r, last, none, _, h => by
    obtain rfl := (Prod.mk.inj h).1
    exact ⟨[], (List.append_nil _).symm, .done⟩
  | [], read, r, last, some l, _, h => by
    have hlogical := @logical_close compact r l
    rw [show r.close compact l = (last, .ok ()) from h] at hlogical
    refine ⟨[l], hlogical, Ahead.close .done fun _ _ _ _ _ => Or.inr fun next hnext => ?_⟩
    cases hnext
  | line :: lines, read, r, last, l?, hread, h => by
    have hfeed : after compact (read ++ [line]) = feed compact (r, .ok l?) line := by rw [after_concat, hread]
    have hind : (after compact read).1.indentation = r.indentation := by rw [hread]
    rw [List.foldl_cons] at h
    cases hnext : feed compact (r, .ok l?) line with
    | mk next result =>
      rw [hnext] at h hfeed
      cases result with
      | error fault =>
        rw [foldl_feed_error] at h
        cases h
      | ok m? =>
        obtain ⟨logical, hlogical, hahead⟩ := exists_ahead lines (read ++ [line]) hfeed h
        cases l? with
        | none =>
          obtain ⟨hdivided, hsame⟩ := hahead.start hnext (by rw [hind])
          exact ⟨logical, by rw [hlogical, hsame], hdivided⟩
        | some l =>
          rcases feed_some_ok hnext with ⟨hcomma, hb, ind, hc, rfl, rfl⟩ | ⟨ind, closed, hclose, hstart, hstop⟩
          · exact ⟨logical, hlogical, hahead.join hcomma hb (by rw [hind, hc])⟩
          · have hclosed := @logical_close compact { r with indentation := ind } l
            have hkept := @indentation_close compact { r with indentation := ind } l
            rw [hclose] at hclosed hkept
            have hagain : closed.indentation.classify true line.text =
                (after compact read).1.indentation.classify true line.text := by
              rw [hkept, hind]
              rcases hstop with ⟨rfl, -⟩ | ⟨found, hc, -⟩
              · rfl
              · exact Indentation.classify_again hc true
            obtain ⟨hdivided, hsame⟩ := hahead.start hstart hagain
            refine ⟨l :: logical, by rw [hlogical, hsame, hclosed]; simp, Ahead.close hdivided ?_⟩
            intro before first more hparts hjoint
            rcases hstop with ⟨-, hcomma | hb⟩ | ⟨found, hc, hne⟩
            · exact Or.inl fun last hlast => by rwa [← hjoint.ends last hlast]
            · exact Or.inr fun next hn => by cases hn; exact Or.inl hb
            · refine Or.inr fun next hn => Or.inr ⟨found, ?_, hne⟩
              cases hn
              rw [← hparts]
              exact indentAfter_of_classify (by rw [hind, hc])

/-- **The logical lines divide the lines of the file among them.** -/
theorem readLines_divided {compact : Bool} {lines : List Line} {r : Reader} (h : readLines compact lines = (r, .ok ())) :
    Divided compact [] lines r.logical := by
  rw [readLines_eq_feed] at h
  obtain ⟨logical, hlogical, hahead⟩ := exists_ahead lines [] rfl h
  rw [hlogical]
  exact hahead

/-- A tab is wider once the step has been learned from the line before, so two lines that begin alike are apart; a comma
alone goes on with what is before it and asks for another line, but not for a blank one. -/
theorem readLines_divided_tabs : ∃ r,
    readLines false (prepare false "a\n\t\tb,\n\t\tc\n,\n\nd,\n,\ne".toList) = (r, .ok ()) ∧
    r.logical.map (fun l => String.ofList l.text) = ["a", "b,", "c", ",", "d,, e"] ∧
    Divided false [] (prepare false "a\n\t\tb,\n\t\tc\n,\n\nd,\n,\ne".toList) r.logical := by
  have hok : (readLines false (prepare false "a\n\t\tb,\n\t\tc\n,\n\nd,\n,\ne".toList)).2 = .ok () := by decide
  exact ⟨_, Prod.ext rfl hok, by decide, readLines_divided (Prod.ext rfl hok)⟩

end Offside
