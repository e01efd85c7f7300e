import Offside.Proofs.Refusal
import Offside.Proofs.RootBlock

/-!
# Which block a statement goes to

A block of a forest has an address (`Forest.blockAt?`), which it keeps while the forest grows.  The open blocks lie one
below the other: each is what stands below the last statement of the block around it (`Along`).  A line closes blocks until
it meets one of its own indent, or opens the block of the last statement of all (`Frames.Aligned.close_cases`), and what it
says is put at the end of the innermost block; the blocks at all other addresses stay as they are (`Along.blockAt?_add`).
-/
namespace Offside

/-! ## What has been learned stays -/

namespace Indentation

theorem learnStyle_extends (ind : Indentation) (indent : Nat) (used : Option Style) :
    (ind.learnStyle indent used).Extends ind := by
  refine ⟨fun hs => ?_, fun _ => learnStyle_step ind indent used⟩
  unfold learnStyle
  rw [if_neg (by simp [hs])]

theorem learnStep_extends (ind : Indentation) (width : Nat) : (ind.learnStep width).Extends ind := by
  cases hs : ind.step with
  | none =>
    refine ⟨fun _ => ?_, fun h => absurd hs h⟩
    simp [learnStep, hs]
  | some s =>
    rw [learnStep_of_some hs]
    exact Extends.refl ind

theorem classify_extends {ind learned : Indentation} {checked : Bool} {text : List Char} {result : Except Cause Nat}
    (h : ind.classify checked text = (learned, result)) : learned.Extends ind := by
  unfold classify at h
  split at h
  · cases h
    exact Extends.refl _
  · simp only at h
    split at h
    · cases h
      exact learnStyle_extends _ _ _
    · cases h
      exact learnStyle_extends _ _ _

theorem exists_mul_of_checkStep {ind : Indentation} {indent s : Nat} (h : ind.checkStep indent = .ok ())
    (hs : ind.step = some s) : ∃ n, indent = n * s := by
  unfold checkStep at h
  rw [hs] at h
  by_cases hzero : indent = 0
  · exact ⟨0, by rw [hzero, Nat.zero_mul]⟩
  · simp only [if_neg hzero] at h
    split at h
    · cases h
    · split at h
      · rename_i hmod
        obtain ⟨n, hn⟩ := Nat.dvd_of_mod_eq_zero hmod
        exact ⟨n, hn.trans (Nat.mul_comm s n)⟩
      · cases h

end Indentation

theorem Frames.enter_extends {frames entered : Frames} {ind learned : Indentation} {indent : Nat} {result : Except Cause Unit}
    (h : frames.enter ind indent = (entered, learned, result)) : learned.Extends ind := by
  simp only [Frames.enter] at h
  split at h
  · split at h
    · split at h
      · cases h
        exact ind.learnStep_extends _
      · cases h
        exact ind.learnStep_extends _
    · cases h
      exact Indentation.Extends.refl _
  · split at h
    · cases h
      exact Indentation.Extends.refl _
    · cases h
      exact Indentation.Extends.refl _

theorem joinLines_extends {indent : Nat} : ∀ {lines : List Line} {ind after : Indentation} {text : List Char}
    {result : Except Fault Joined}, joinLines ind indent text lines = (after, result) → after.Extends ind
  | [], ind, after, text, result, h => by
    cases h
    exact Indentation.Extends.refl _
  | line :: lines, ind, after, text, result, h => by
    rw [joinLines] at h
    split at h
    · split at h
      · rename_i hc
        cases h
        exact Indentation.classify_extends hc
      · rename_i hc
        split at h
        · split at h
          · rename_i hj
            cases h
            exact (joinLines_extends hj).trans (Indentation.classify_extends hc)
          · rename_i hj
            cases h
            exact (joinLines_extends hj).trans (Indentation.classify_extends hc)
        · cases h
          exact Indentation.classify_extends hc
    · cases h
      exact Indentation.Extends.refl _

namespace Reader

variable {compact : Bool}

theorem Enters.keeps {r : Reader} {line : Line} {indent : Nat} {frames : Frames} {ind : Indentation}
    (h : r.Enters line indent frames ind) : ind.Extends r.indentation := by
  obtain ⟨measured, hc, he⟩ := h
  exact (Frames.enter_extends he).trans (Indentation.classify_extends hc)

/-- Whether a step is accepted or not, it changes nothing of what was known. -/
theorem step_extends {r after : Reader} {line : Line} {following : List Line} {result : Except Fault Nat}
    (h : r.step compact line following = (after, result)) : after.indentation.Extends r.indentation := by
  simp only [step] at h
  split at h
  · rename_i hc
    cases h
    exact Indentation.classify_extends hc
  · rename_i measured indent hc
    split at h
    · rename_i he
      cases h
      exact (Frames.enter_extends he).trans (Indentation.classify_extends hc)
    · rename_i he
      have hentered := Enters.keeps ⟨measured, hc, he⟩
      split at h
      · rename_i hj
        cases h
        exact (joinLines_extends hj).trans hentered
      · rename_i hj
        have hjoined := (joinLines_extends hj).trans hentered
        split at h
        · cases h
          exact hjoined
        · rename_i s _
          cases h
          cases s <;> exact hjoined

theorem readFrom_extends : ∀ (lines : List Line) (skip : Nat) (r : Reader),
    (readFrom compact skip r lines).1.indentation.Extends r.indentation
  | [], _, r => Indentation.Extends.refl r.indentation
  | _ :: lines, skip + 1, r => readFrom_extends lines skip r
  | line :: lines, 0, r => by
    rw [readFrom]
    split
    · exact readFrom_extends lines 0 r
    · split
      · rename_i hs
        exact step_extends hs
      · rename_i next skip hs
        exact (readFrom_extends lines skip next).trans (step_extends hs)

theorem Reaches.indentation_extends {r later : Reader} {rest rest' : List Line} (h : Reaches compact 0 r rest later rest') :
    later.indentation.Extends r.indentation := by
  refine h.preserves (P := fun later => later.indentation.Extends r.indentation) ?_ (Indentation.Extends.refl _)
  intro later next line following skip hlater _ hs
  exact (step_extends hs).trans hlater

end Reader

/-! ## The indents of the open blocks -/

theorem levelled_indents {step : Nat} : ∀ {frames : List Frame}, levelled step frames →
    (frames.map Frame.indent).reverse = (List.range frames.length).map (· * step)
  | [], _ => rfl
  | frame :: below, h => by
    rw [List.map_cons, List.reverse_cons, levelled_indents h.2, List.length_cons, List.range_succ, List.map_append,
      List.map_singleton, h.1]

namespace Frames

theorem Aligned.indents_of_some {frames : Frames} {ind : Indentation} (h : frames.Aligned ind) {s : Nat}
    (hs : ind.step = some s) : frames.indents = (List.range (frames.depth + 1)).map (· * s) := by
  have hlevels := h.levels
  rw [hs, Option.getD_some] at hlevels
  exact levelled_indents hlevels

theorem Aligned.indents_of_none {frames : Frames} {ind : Indentation} (h : frames.Aligned ind) (hs : ind.step = none) :
    frames.indents = [0] := by
  have hbelow := h.alone hs
  have htop := h.levels.1
  rw [hbelow, List.length_nil, Nat.zero_mul] at htop
  rw [indents, hbelow, List.map_singleton, htop, List.reverse_singleton]

/-- **Where closing stops**, for a line that was accepted: at a block of the line's own indent, or right away, since the
line is deeper than all that is open. -/
theorem Aligned.close_cases {frames : Frames} {ind measured : Indentation} {text : List Char} {indent : Nat}
    (h : frames.Aligned ind) (hc : ind.classify true text = (measured, .ok indent)) :
    (frames.close indent).top.indent = indent ∨ (frames.close indent = frames ∧ frames.top.indent < indent) := by
  by_cases hdeep : frames.top.indent < indent
  · exact Or.inr ⟨close_of_le (Nat.le_of_lt hdeep), hdeep⟩
  left
  have hle : indent ≤ frames.top.indent := Nat.not_lt.1 hdeep
  have hm := h.classified hc
  obtain ⟨-, -, -, hcheck⟩ := Indentation.classify_ok hc
  cases hs : measured.step with
  | none =>
    -- nothing is open but the file itself, and that is not indented
    have hbelow := hm.alone hs
    have htop := hm.levels.1
    rw [hbelow, List.length_nil, Nat.zero_mul] at htop
    rw [close_of_below_nil hbelow]
    omega
  | some s =>
    obtain ⟨n, rfl⟩ : ∃ n, indent = n * s := Indentation.exists_mul_of_checkStep (hcheck rfl) hs
    have htop := hm.levels.1
    rw [hs, Option.getD_some] at htop
    rw [htop] at hle
    exact (hm.close_within hs (Nat.le_of_mul_le_mul_right hle (hm.pos s hs))).2.2

end Frames

/-! ## Addresses -/

namespace Forest

/-- The trees of a sheet: its statements, each with what is below it. -/
def trees : Sheet → List (Statement × Sheet)
  | .nil => []
  | .leaf item rest => (.leaf item, .nil) :: trees rest
  | .block heading children rest => (.heading heading, children) :: trees rest
  | .foreign item _ => nomatch item

/-- The block at an address.  The empty address is that of the whole sheet; a number leads to what is below the statement
with so many others before it. -/
def blockAt? : Sheet → List Nat → Option Sheet
  | f, [] => some f
  | f, i :: path => f.trees[i]?.bind fun tree => tree.2.blockAt? path

theorem map_fst_trees : ∀ f : Sheet, f.trees.map Prod.fst = f.top
  | .nil => rfl
  | .leaf _ rest => by rw [trees, top, List.map_cons, map_fst_trees rest]
  | .block _ _ rest => by rw [trees, top, List.map_cons, map_fst_trees rest]

theorem length_trees (f : Sheet) : f.trees.length = f.top.length := by rw [← map_fst_trees, List.length_map]

theorem getLast?_top {f : Sheet} {tree : Statement × Sheet} (h : f.trees.getLast? = some tree) :
    f.top.getLast? = some tree.1 := by
  rw [← map_fst_trees, List.getLast?_map, h, Option.map_some]

theorem blockAt?_append (q : List Nat) : ∀ (path : List Nat) {f b : Sheet}, f.blockAt? path = some b →
    f.blockAt? (path ++ q) = b.blockAt? q
  | [], _, _, h => by
    cases h
    rfl
  | i :: path, f, b, h => by
    rw [blockAt?, Option.bind_eq_some_iff] at h
    obtain ⟨tree, htree, h⟩ := h
    rw [List.cons_append, blockAt?, htree, Option.bind_some, blockAt?_append q path h]

theorem trees_add_zero (s : Statement) : ∀ f : Sheet, (f.add 0 s).trees = f.trees ++ [(s, .nil)]
  | .nil => by cases s <;> rfl
  | .leaf item rest => by rw [add, trees, trees, trees_add_zero s rest, List.cons_append]
  | .block heading children rest => by
    have hadd : (block heading children rest).add 0 s = block heading children (rest.add 0 s) := by
      cases rest <;> rfl
    rw [hadd, trees, trees, trees_add_zero s rest, List.cons_append]

theorem trees_ne_nil {f : Sheet} (h : f ≠ .nil) : f.trees ≠ [] := by
  cases f with
  | nil => exact absurd rfl h
  | leaf _ _ => simp [trees]
  | block _ _ _ => simp [trees]
  | foreign item _ => exact item.elim

/-- What is added further down goes below the last statement. -/
theorem trees_add_succ (s : Statement) (d : Nat) {heading : Heading} {children : Sheet} : ∀ {f : Sheet},
    f.trees.getLast? = some (.heading heading, children) →
      (f.add (d + 1) s).trees = f.trees.dropLast ++ [(.heading heading, children.add d s)]
  | .nil, h => by cases h
  | .leaf item rest, h => by
    by_cases hrest : rest = .nil
    · subst hrest
      cases h
    · have hne := trees_ne_nil hrest
      rw [trees, List.getLast?_cons_of_ne_nil hne] at h
      rw [add, trees, trees, trees_add_succ s d h, List.dropLast_cons_of_ne_nil hne, List.cons_append]
  | .block heading' children' rest, h => by
    by_cases hrest : rest = .nil
    · subst hrest
      cases h
      rfl
    · have hne := trees_ne_nil hrest
      rw [trees, List.getLast?_cons_of_ne_nil hne] at h
      rw [add_block hrest, trees, trees, trees_add_succ s d h, List.dropLast_cons_of_ne_nil hne, List.cons_append]

theorem getLast?_trees_add_zero (s : Statement) (f : Sheet) : (f.add 0 s).trees.getLast? = some (s, .nil) := by
  rw [trees_add_zero, List.getLast?_concat]

theorem getElem?_trees_add_succ (s : Statement) (d : Nat) {f : Sheet} {heading : Heading} {children : Sheet}
    (h : f.trees.getLast? = some (.heading heading, children)) {i : Nat} (hi : i ≠ f.trees.length - 1) :
    (f.add (d + 1) s).trees[i]? = f.trees[i]? := by
  obtain ⟨front, hfront⟩ := List.getLast?_eq_some_iff.1 h
  rw [trees_add_succ s d h, hfront, List.dropLast_concat]
  rw [hfront, List.length_append, List.length_singleton, Nat.add_sub_cancel] at hi
  rcases Nat.lt_or_gt_of_ne hi with hlt | hgt
  · rw [List.getElem?_append_left hlt, List.getElem?_append_left hlt]
  · have hout : front.length + 1 ≤ i := hgt
    rw [List.getElem?_eq_none (by simpa using hout), List.getElem?_eq_none (by simpa using hout)]

theorem top_add_succ (s : Statement) (d : Nat) {f : Sheet} {heading : Heading} {children : Sheet}
    (h : f.trees.getLast? = some (.heading heading, children)) : (f.add (d + 1) s).top = f.top := by
  obtain ⟨front, hfront⟩ := List.getLast?_eq_some_iff.1 h
  rw [← map_fst_trees, ← map_fst_trees, trees_add_succ s d h, hfront, List.dropLast_concat]
  simp

end Forest

/-! ## The open blocks in the forest -/

/-- **The open blocks lie along a path of the forest.**  Innermost first, each frame has a block, and knows the last
statement of it.  The outermost block is the whole forest; every other one is what stands below the last statement of the
block around it, a heading.  The innermost block comes last, with its address before it. -/
inductive Along (f : Sheet) : List Frame → List Nat → Sheet → Prop
  | outermost {frame : Frame} (hlast : f.top.getLast? = frame.last) : Along f [frame] [] f
  | within {frame owner : Frame} {below : List Frame} {path : List Nat} {around children : Sheet} {heading : Heading}
      (h : Along f (owner :: below) path around)
      (htree : around.trees.getLast? = some (.heading heading, children)) (howner : owner.last = some (.heading heading))
      (hlast : children.top.getLast? = frame.last) :
      Along f (frame :: owner :: below) (path ++ [around.trees.length - 1]) children

namespace Along

variable {f inner : Sheet} {frame : Frame} {frames below : List Frame} {path : List Nat}

theorem getLast?_top (h : Along f (frame :: below) path inner) : inner.top.getLast? = frame.last := by
  cases h with
  | outermost hlast => exact hlast
  | within _ _ _ hlast => exact hlast

theorem length_eq (h : Along f frames path inner) : frames.length = path.length + 1 := by
  induction h with
  | outermost _ => rfl
  | within _ _ _ _ ih => rw [List.length_cons, ih, List.length_append, List.length_singleton]

theorem blockAt?_eq (h : Along f frames path inner) : f.blockAt? path = some inner := by
  induction h with
  | outermost _ => rfl
  | @within _ _ _ path around children _ _ htree _ _ ih =>
    rw [Forest.blockAt?_append _ path ih, Forest.blockAt?, ← List.getLast?_eq_getElem?, htree]
    rfl

/-- Blocks may be closed. -/
theorem of_suffix (h : Along f frames path inner) {kept : List Frame} (hkept : kept <:+ frames) (hne : kept ≠ []) :
    ∃ path' inner', Along f kept path' inner' := by
  induction h with
  | @outermost frame hlast =>
    rcases List.suffix_cons_iff.1 hkept with rfl | hnil
    · exact ⟨[], f, .outermost hlast⟩
    · exact absurd (List.suffix_nil.1 hnil) hne
  | within h htree howner hlast ih =>
    rcases List.suffix_cons_iff.1 hkept with rfl | hsuffix
    · exact ⟨_, _, .within h htree howner hlast⟩
    · exact ih hsuffix

/-! ### Adding a statement -/

variable (s : Statement)

theorem within_add {owner : Frame} {around children : Sheet} {heading : Heading} {d : Nat}
    (h : Along (f.add (path.length + (d + 1)) s) (owner :: below) path (around.add (d + 1) s))
    (htree : around.trees.getLast? = some (.heading heading, children)) (howner : owner.last = some (.heading heading))
    (hlast : (children.add d s).top.getLast? = frame.last) :
    Along (f.add ((path ++ [around.trees.length - 1]).length + d) s) (frame :: owner :: below)
      (path ++ [around.trees.length - 1]) (children.add d s) := by
  have hlength : (around.add (d + 1) s).trees.length = around.trees.length := by
    rw [Forest.length_trees, Forest.length_trees, Forest.top_add_succ s d htree]
  have htree' : (around.add (d + 1) s).trees.getLast? = some (.heading heading, children.add d s) := by
    rw [Forest.trees_add_succ s d htree, List.getLast?_concat]
  rw [List.length_append, List.length_singleton, Nat.add_assoc, Nat.add_comm 1 d, ← hlength]
  exact .within h htree' howner hlast

/-- What is added below the innermost block leaves the open blocks as they are. -/
theorem add (h : Along f frames path inner) (d : Nat) (hd : (inner.add d s).top = inner.top) :
    Along (f.add (path.length + d) s) frames path (inner.add d s) := by
  induction h generalizing d with
  | outermost hlast =>
    rw [List.length_nil, Nat.zero_add]
    exact .outermost (hd ▸ hlast)
  | within _ htree howner hlast ih =>
    exact within_add s (ih (d + 1) (Forest.top_add_succ s d htree)) htree howner (hd ▸ hlast)

/-- **What is taken into the innermost block becomes its last statement.** -/
theorem record (h : Along f (frame :: below) path inner) :
    Along (f.add path.length s) ({ frame with last := some s } :: below) path (inner.add 0 s) := by
  have hlast : (inner.add 0 s).top.getLast? = some s := Forest.getLast?_top (Forest.getLast?_trees_add_zero s inner)
  cases h with
  | outermost _ => exact .outermost hlast
  | within h htree howner _ => exact within_add s (h.add s 1 (Forest.top_add_succ s 0 htree)) htree howner hlast

/-- Away from the innermost block nothing changes. -/
theorem blockAt?_away (h : Along f frames path inner) (d : Nat) {q : List Nat} {b : Sheet} (hq : f.blockAt? q = some b)
    (haway : ¬path <+: q) : ∃ b', (f.add (path.length + d) s).blockAt? q = some b' ∧ b'.top = b.top := by
  induction h generalizing d with
  | outermost _ => exact absurd List.nil_prefix haway
  | @within _ _ _ path around children heading h htree _ _ ih =>
    rw [List.length_append, List.length_singleton, Nat.add_assoc, Nat.add_comm 1 d]
    by_cases hpath : path <+: q
    · -- the address goes through the block around, and leaves it by another statement than the last
      obtain ⟨q, rfl⟩ := hpath
      have haround := h.add s (d + 1) (Forest.top_add_succ s d htree)
      rw [Forest.blockAt?_append q path h.blockAt?_eq] at hq
      rw [Forest.blockAt?_append q path haround.blockAt?_eq]
      cases q with
      | nil =>
        cases hq
        exact ⟨_, rfl, Forest.top_add_succ s d htree⟩
      | cons i q =>
        have hi : i ≠ around.trees.length - 1 := by
          rintro rfl
          exact haway ⟨q, by rw [List.append_assoc, List.singleton_append]⟩
        refine ⟨b, ?_, rfl⟩
        rw [Forest.blockAt?, Forest.getElem?_trees_add_succ s d htree hi]
        exact hq
    · exact ih (d + 1) hpath

/-- **A statement is put at the end of the innermost block, and no other block changes.** -/
theorem blockAt?_add (h : Along f (frame :: below) path inner) {q : List Nat} {b : Sheet} (hq : f.blockAt? q = some b) :
    ∃ b', (f.add path.length s).blockAt? q = some b' ∧ b'.top = if q = path then b.top ++ [s] else b.top := by
  by_cases hpath : path <+: q
  · obtain ⟨q, rfl⟩ := hpath
    rw [Forest.blockAt?_append q path h.blockAt?_eq] at hq
    rw [Forest.blockAt?_append q path (h.record s).blockAt?_eq]
    cases q with
    | nil =>
      cases hq
      refine ⟨_, rfl, ?_⟩
      rw [List.append_nil, if_pos rfl, ← Forest.map_fst_trees, ← Forest.map_fst_trees, Forest.trees_add_zero,
        List.map_append, List.map_singleton]
    | cons i q =>
      refine ⟨b, ?_, by rw [if_neg (by simp)]⟩
      rw [Forest.blockAt?, Option.bind_eq_some_iff] at hq ⊢
      obtain ⟨tree, htree, hq⟩ := hq
      refine ⟨tree, ?_, hq⟩
      rw [Forest.trees_add_zero, List.getElem?_append_left (List.getElem?_eq_some_iff.1 htree).1, htree]
  · have hne : q ≠ path := fun he => hpath (he ▸ List.prefix_rfl)
    rw [if_neg hne]
    exact h.blockAt?_away s 0 hq hpath

end Along

/-! ## Reading -/

namespace Reader

/-- **The open blocks are in order.**  Outermost first, they are indented by no step, one step, two steps and so on; while
no step is known there is only the outermost.  They lie along a path of the forest. -/
structure InOrder (r : Reader) : Prop where
  stepped : ∀ s, r.indentation.step = some s →
    0 < s ∧ r.frames.indents = (List.range (r.frames.depth + 1)).map (· * s)
  unstepped : r.indentation.step = none → r.frames.indents = [0]
  along : ∃ path inner, Along r.sheet r.frames.toList path inner

/-- **A step puts `s` at the end of the block at `path`**, which is the innermost one then; the other blocks stay as they
are. -/
structure Adds (r next : Reader) (path : List Nat) (s : Statement) : Prop where
  along : ∃ inner, Along next.sheet next.frames.toList path inner ∧ inner.trees.getLast? = some (s, .nil)
  blocks : ∀ q b, r.sheet.blockAt? q = some b →
    ∃ b', next.sheet.blockAt? q = some b' ∧ b'.top = if q = path then b.top ++ [s] else b.top

/-- Between two statements nothing stands below the last one yet. -/
def Ready (r : Reader) : Prop :=
  ∃ path inner, Along r.sheet r.frames.toList path inner ∧ ∀ tree ∈ inner.trees.getLast?, tree.2 = .nil

theorem Ready.initial : Ready {} := ⟨[], .nil, .outermost rfl, by simp [Forest.trees]⟩

theorem Adds.ready {r next : Reader} {path : List Nat} {s : Statement} (h : r.Adds next path s) : next.Ready := by
  obtain ⟨inner, halong, hlast⟩ := h.along
  refine ⟨path, inner, halong, fun tree htree => ?_⟩
  rw [hlast] at htree
  cases htree
  rfl

section

variable {compact : Bool} {r next : Reader} {line : Line} {following : List Line} {skip : Nat}

/-- **A line goes to a block on the path, or opens the one at its end.**  That one is still empty. -/
theorem Ready.enter (h : r.Ready) (ha : r.frames.Aligned r.indentation) {indent : Nat} {entered : Frames}
    {learned : Indentation} (hin : r.Enters line indent entered learned) :
    ∃ path inner, Along r.sheet entered.toList path inner := by
  obtain ⟨path, inner, halong, hnone⟩ := h
  obtain ⟨measured, hc, he⟩ := hin
  rcases Frames.enter_ok he with ⟨-, rfl, -⟩ | ⟨hlt, hnests, -, -, rfl⟩
  · exact halong.of_suffix (r.frames.close_suffix indent) (by simp [Frames.toList])
  · rcases ha.close_cases hc with hsame | ⟨hclose, -⟩
    · exact absurd hsame (Nat.ne_of_lt hlt)
    · rw [hclose] at hnests ⊢
      obtain ⟨last, howner, hheading⟩ : ∃ last, r.frames.top.last = some last ∧ last.isHeading = true := by
        simpa [Frames.mayNest, Option.any_eq_true] using hnests
      cases last with
      | leaf item => cases hheading
      | heading heading =>
        have hlast : inner.top.getLast? = some (.heading heading) := halong.getLast?_top.trans howner
        rw [← Forest.map_fst_trees, List.getLast?_map, Option.map_eq_some_iff] at hlast
        obtain ⟨⟨_, children⟩, htree, rfl⟩ := hlast
        obtain rfl : children = .nil := hnone _ htree
        exact ⟨_, _, .within halong htree howner rfl⟩

theorem Ready.step (h : r.Ready) (hr : r.Sound compact) (hb : allBlank line.text = false)
    (hs : r.step compact line following = (next, .ok skip)) : ∃ path s, r.Adds next path s := by
  obtain ⟨measured, indent, entered, learned, ind, joined, s, hc, he, hj, hread, -, rfl⟩ := step_ok hs
  obtain ⟨path, inner, halong⟩ := h.enter hr.aligned ⟨measured, hc, he⟩
  have hjoins := (joinLines_iff ((hr.aligned.classified hc).enter he).1.pos).1 hj
  cases s with
  | none => exact absurd hread (Statement.read_ne_none (hjoins.not_blank (by rw [allBlank_trim, hb])))
  | some s =>
    have hdepth : entered.depth = path.length := Nat.succ.inj halong.length_eq
    refine ⟨path, s, ⟨inner.add 0 s, ?_, Forest.getLast?_trees_add_zero s inner⟩, fun q b hq => ?_⟩
    · simp only [take, hdepth]
      exact halong.record s
    · simp only [take, hdepth]
      exact halong.blockAt?_add s hq

/-- **What stands below a statement changes only while the statement is the last one of an open block**: the block around the
innermost one. -/
theorem Adds.owner {path : List Nat} {s : Statement} (h : r.Adds next path s) {q : List Nat} {i : Nat} {b c c' : Sheet}
    (hb : r.sheet.blockAt? q = some b) (hc : r.sheet.blockAt? (q ++ [i]) = some c)
    (hc' : next.sheet.blockAt? (q ++ [i]) = some c') (hne : c'.top ≠ c.top) :
    i + 1 = b.top.length ∧ ∃ owner ∈ next.frames.below.head?, owner.last = b.top.getLast? ∧
      Frames.mayNest owner = true := by
  have hpath : q ++ [i] = path := by
    by_contra hother
    obtain ⟨c'', hc'', htop⟩ := h.blocks _ _ hc
    rw [if_neg hother] at htop
    rw [hc', Option.some.injEq] at hc''
    exact hne (hc''.symm ▸ htop)
  obtain ⟨inner, halong, -⟩ := h.along
  obtain ⟨b', hb', htop⟩ := h.blocks q b hb
  rw [if_neg (by simp [← hpath])] at htop
  rw [← htop]
  generalize hframes : next.frames.toList = frames at halong
  cases halong with
  | outermost _ => simp at hpath
  | @within frame owner below path around children heading halong htree howner _ =>
    obtain ⟨rfl, hi⟩ := List.append_inj' hpath rfl
    have haround := halong.blockAt?_eq
    rw [hb', Option.some.injEq] at haround
    subst haround
    have hpos : b'.trees ≠ [] := fun hn => by rw [hn] at htree; cases htree
    have hlength := List.length_pos_iff.2 hpos
    rw [List.cons.injEq, and_iff_left rfl] at hi
    refine ⟨by rw [← Forest.length_trees]; omega, owner, ?_, ?_, ?_⟩
    · rw [Frames.toList, List.cons.injEq] at hframes
      rw [hframes.2]
      rfl
    · rw [howner, Forest.getLast?_top htree]
    · simp [Frames.mayNest, howner, Statement.isHeading]

theorem InOrder.of_along (ha : r.frames.Aligned r.indentation) {path : List Nat} {inner : Sheet}
    (h : Along r.sheet r.frames.toList path inner) : r.InOrder where
  stepped s hs := ⟨ha.pos s hs, ha.indents_of_some hs⟩
  unstepped hs := ha.indents_of_none hs
  along := ⟨path, inner, h⟩

theorem Ready.inOrder (h : r.Ready) (ha : r.frames.Aligned r.indentation) : r.InOrder := by
  obtain ⟨path, inner, halong, -⟩ := h
  exact .of_along ha halong

theorem Reaches.readFrom_eq {skip : Nat} {reached : Reader} {lines rest : List Line}
    (h : Reaches compact skip r lines reached rest) : readFrom compact skip r lines = readFrom compact 0 reached rest := by
  induction h with
  | here => rfl
  | pass _ ih => exact ih
  | blank hb _ ih => rw [readFrom, if_pos hb, ih]
  | step hb hs _ ih =>
    rw [readFrom, if_neg (by simp [hb]), hs]
    exact ih

theorem Reaches.ready {reached : Reader} {lines rest : List Line} (h : Reaches compact 0 {} lines reached rest) :
    reached.Sound compact ∧ reached.Ready := by
  refine h.preserves (P := fun r => r.Sound compact ∧ r.Ready) ?_ ⟨Sound.initial compact, Ready.initial⟩
  rintro r next line following skip ⟨hsound, hready⟩ hb hs
  obtain ⟨path, s, hadds⟩ := hready.step hsound hb hs
  exact ⟨hsound.step hb hs, hadds.ready⟩

end

end Reader

/-- **The open blocks are in order whenever a reading goes on**, and again when a line has found its block.  What has been
learned stays.  Closing stops at a block of the line's own indent, or the line is deeper than all that is open.  The
statement is put at the end of the innermost block; so what stands below a statement changes only while that is the last one
of an open block. -/
theorem readLines_inOrder {compact : Bool} {lines rest : List Line} {r : Reader}
    (h : Reader.Reaches compact 0 {} lines r rest) :
    readLines compact lines = Reader.readFrom compact 0 r rest ∧ r.InOrder ∧
    (Reader.readFrom compact 0 r rest).1.indentation.Extends r.indentation ∧
    (∀ later rest', Reader.Reaches compact 0 r rest later rest' → later.indentation.Extends r.indentation) ∧
    ∀ line following, rest = line :: following → allBlank line.text = false →
      (∀ measured indent, r.indentation.classify true line.text = (measured, .ok indent) →
        (r.frames.close indent).top.indent = indent ∨
          (r.frames.close indent = r.frames ∧ r.frames.top.indent < indent)) ∧
      (∀ indent frames ind, r.Enters line indent frames ind →
        Reader.InOrder { r with indentation := ind, frames := frames } ∧ frames.top.indent = indent ∧
          ind.Extends r.indentation) ∧
      ∀ next skip, r.step compact line following = (next, .ok skip) →
        (∃ path s, r.Adds next path s) ∧
        ∀ q i b c c', r.sheet.blockAt? q = some b → r.sheet.blockAt? (q ++ [i]) = some c →
          next.sheet.blockAt? (q ++ [i]) = some c' → c'.top ≠ c.top →
            i + 1 = b.top.length ∧ ∃ owner ∈ next.frames.below.head?, owner.last = b.top.getLast? ∧
              Frames.mayNest owner = true := by
  obtain ⟨hsound, hready⟩ := h.ready
  have haligned := hsound.aligned
  refine ⟨h.readFrom_eq, hready.inOrder haligned, Reader.readFrom_extends rest 0 r,
    fun later rest' hlater => hlater.indentation_extends, ?_⟩
  intro line following _ hb
  refine ⟨fun measured indent hc => haligned.close_cases hc, ?_, ?_⟩
  · intro indent frames ind hin
    obtain ⟨path, inner, hentered⟩ := hready.enter haligned hin
    have hextends := hin.keeps
    obtain ⟨measured, hc, he⟩ := hin
    obtain ⟨hlearned, htop⟩ := (haligned.classified hc).enter he
    exact ⟨.of_along hlearned hentered, htop, hextends⟩
  · intro next skip hs
    obtain ⟨path, s, hadds⟩ := hready.step hsound hb hs
    exact ⟨⟨path, s, hadds⟩, fun q i b c c' hq hc hc' hne => hadds.owner hq hc hc' hne⟩

/-- The last line closes one block and goes to the one around it, which stands below the first statement. -/
theorem readLines_inOrder_nested :
    let rule (c : Char) : Heading := .rule [c] none
    let first : Frame := { indent := 0, last := some (.heading (rule 'a')) }
    let xy : Leaf := .declare ['x'] ['y'] none
    let cd : Leaf := .declare ['c'] ['d'] none
    let r : Reader :=
      { indentation := { style := some .space, step := some 2 }
        frames :=
          { top := { indent := 4, last := some (.leaf xy) }
            below := [{ indent := 2, last := some (.heading (rule 'b')) }, first] }
        logical := [⟨['a'], 0, 0⟩, ⟨['b'], 2, 2⟩, ⟨"x: y".toList, 6, 4⟩]
        sheet := .block (rule 'a') (.block (rule 'b') (.leaf xy .nil) .nil) .nil }
    let next : Reader :=
      { r with
        frames := { top := { indent := 2, last := some (.leaf cd) }, below := [first] }
        logical := r.logical ++ [⟨"c: d".toList, 15, 2⟩]
        sheet := .block (rule 'a') (.block (rule 'b') (.leaf xy .nil) (.leaf cd .nil)) .nil }
    let line : Line := { text := "  c: d".toList, offset := 15 }
    Reader.Reaches false 0 {} (prepare false "a\n  b\n    x: y\n  c: d".toList) r [line] ∧
      r.InOrder ∧ r.frames.indents = [0, 2, 4] ∧
      r.indentation.classify true line.text = (r.indentation, .ok 2) ∧ (r.frames.close 2).top.indent = 2 ∧
      r.step false line [] = (next, .ok 0) ∧ (∃ path s, r.Adds next path s) ∧
      0 + 1 = r.sheet.top.length ∧ ∃ owner ∈ next.frames.below.head?, owner.last = r.sheet.top.getLast? ∧
        Frames.mayNest owner = true := by
  intro rule first xy cd r next line
  let one : Reader :=
    { frames := { top := first, below := [] }
      logical := [⟨['a'], 0, 0⟩]
      sheet := .block (rule 'a') .nil .nil }
  let two : Reader :=
    { r with
      frames := { top := { indent := 2, last := some (.heading (rule 'b')) }, below := [first] }
      logical := [⟨['a'], 0, 0⟩, ⟨['b'], 2, 2⟩]
      sheet := .block (rule 'a') (.block (rule 'b') .nil .nil) .nil }
  obtain ⟨hlines, hone, htwo, hthree⟩ :
      prepare false "a\n  b\n    x: y\n  c: d".toList =
        [⟨['a'], 0⟩, ⟨"  b".toList, 2⟩, ⟨"    x: y".toList, 6⟩, line] ∧
      Reader.step false {} ⟨['a'], 0⟩ [⟨"  b".toList, 2⟩, ⟨"    x: y".toList, 6⟩, line] = (one, .ok 0) ∧
      one.step false ⟨"  b".toList, 2⟩ [⟨"    x: y".toList, 6⟩, line] = (two, .ok 0) ∧
      two.step false ⟨"    x: y".toList, 6⟩ [line] = (r, .ok 0) := by
    decide +revert
  have hreaches : Reader.Reaches false 0 {} (prepare false "a\n  b\n    x: y\n  c: d".toList) r [line] := by
    rw [hlines]
    exact .step (by decide) hone (.step (by decide) htwo (.step (by decide) hthree .here))
  clear hlines hone htwo hthree one two
  obtain ⟨hindents, hc, hs⟩ : r.frames.indents = [0, 2, 4] ∧
      r.indentation.classify true line.text = (r.indentation, .ok 2) ∧ r.step false line [] = (next, .ok 0) := by
    clear hreaches
    decide +revert
  obtain ⟨-, horder, -, -, hline⟩ := readLines_inOrder hreaches
  obtain ⟨hclose, -, hstep⟩ := hline line [] rfl (by decide)
  obtain ⟨hadds, howner⟩ := hstep next 0 hs
  have hmeets : (r.frames.close 2).top.indent = 2 := (hclose _ 2 hc).resolve_right (fun h => absurd h.2 (by decide))
  exact ⟨hreaches, horder, hindents, hc, hmeets, hs, hadds, howner [] 0 _ _ _ rfl rfl rfl (by decide)⟩

end Offside
