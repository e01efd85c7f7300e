import Offside.Build.World
import Offside.Proofs.Pointing

/-!
# Moved offsets

Reading only carries offsets along: lines that are moved read as before, and what is recorded
or reported of them is moved (`readLines_move`).  A source and the same source with its line
breaks written as LF have the same lines up to such a move (`prepare_unifyBreaks`), so they
compile alike (`compile_unifyBreaks`).
-/
namespace Offside

/-! ## Reading moved lines -/

def Line.move (f : Nat → Nat) (line : Line) : Line := { line with offset := f line.offset }

def LogicalLine.move (f : Nat → Nat) (l : LogicalLine) : LogicalLine := { l with offset := f l.offset }

def Fault.move (f : Nat → Nat) (fault : Fault) : Fault := { fault with index := f fault.index }

def Reader.move (f : Nat → Nat) (r : Reader) : Reader := { r with logical := r.logical.map (LogicalLine.move f) }

section

variable (f : Nat → Nat)

@[simp] theorem Line.move_text (line : Line) : (line.move f).text = line.text := rfl

@[simp] theorem Line.move_offset (line : Line) : (line.move f).offset = f line.offset := rfl

@[simp] theorem Reader.move_indentation (r : Reader) : (r.move f).indentation = r.indentation := rfl

@[simp] theorem Reader.move_frames (r : Reader) : (r.move f).frames = r.frames := rfl

theorem joinLines_move (indent : Nat) : ∀ (lines : List Line) (ind : Indentation) (text : List Char),
    joinLines ind indent text (lines.map (Line.move f)) =
      Prod.map id (Except.mapError (Fault.move f)) (joinLines ind indent text lines)
  | [], _, _ => rfl
  | line :: lines, ind, text => by
    rw [List.map_cons, joinLines, joinLines]
    by_cases hgo : (text.getLast? == some ',' && !(trim line.text).isEmpty) = true
    · have hmoved : (text.getLast? == some ',' && !(trim (line.move f).text).isEmpty) = true := hgo
      rw [if_pos hmoved, if_pos hgo, Line.move_text]
      cases ind.classify false line.text with
      | mk learned result =>
        cases result with
        | error cause => rfl
        | ok found =>
          simp only
          by_cases hfound : found = indent
          · rw [if_pos hfound, if_pos hfound, joinLines_move indent lines]
            cases joinLines learned indent (joinText text (trim line.text)) lines with
            | mk after result => cases result <;> rfl
          · rw [if_neg hfound, if_neg hfound]
            rfl
    · have hmoved : ¬(text.getLast? == some ',' && !(trim (line.move f).text).isEmpty) = true := hgo
      rw [if_neg hmoved, if_neg hgo]
      rfl

theorem Reader.step_move (compact : Bool) (r : Reader) (line : Line) (following : List Line) :
    (r.move f).step compact (line.move f) (following.map (Line.move f)) =
      Prod.map (Reader.move f) (Except.mapError (Fault.move f)) (r.step compact line following) := by
  simp only [Reader.step, Line.move_text, Line.move_offset, Reader.move_indentation, Reader.move_frames, joinLines_move]
  cases r.indentation.classify true line.text with
  | mk measured result =>
    cases result with
    | error cause => rfl
    | ok indent =>
      simp only
      obtain ⟨frames, learned, result⟩ := r.frames.enter measured indent
      cases result with
      | error cause => rfl
      | ok _ =>
        simp only
        cases joinLines learned indent (trim line.text) following with
        | mk ind result =>
          cases result with
          | error fault => rfl
          | ok joined =>
            simp only [Prod.map, Except.mapError]
            cases Statement.read compact joined.text with
            | error cause => simp [Reader.move, LogicalLine.move, Fault.move]
            | ok s => cases s <;> simp [Reader.take, Reader.move, LogicalLine.move]

theorem Reader.readFrom_move (compact : Bool) : ∀ (lines : List Line) (skip : Nat) (r : Reader),
    readFrom compact skip (r.move f) (lines.map (Line.move f)) =
      Prod.map (Reader.move f) (Except.mapError (Fault.move f)) (readFrom compact skip r lines)
  | [], _, _ => by simp [readFrom, Except.mapError]
  | _ :: lines, skip + 1, r => readFrom_move compact lines skip r
  | line :: lines, 0, r => by
    rw [List.map_cons, readFrom, readFrom, Line.move_text]
    split
    · exact readFrom_move compact lines 0 r
    · rw [Reader.step_move]
      cases r.step compact line lines with
      | mk next result =>
        cases result with
        | error fault => rfl
        | ok skip => exact readFrom_move compact lines skip next

/-- **Offsets are only carried along.** -/
theorem readLines_move (compact : Bool) (lines : List Line) :
    readLines compact (lines.map (Line.move f)) =
      Prod.map (Reader.move f) (Except.mapError (Fault.move f)) (readLines compact lines) :=
  Reader.readFrom_move f compact lines 0 {}

theorem splitLines_move (stop : Nat) : ∀ ps : List Placed,
    splitLines (f stop) (ps.map (Prod.map id f)) = (splitLines stop ps).map (Line.move f)
  | [] => rfl
  | (c, i) :: ps => by
    rw [List.map_cons, Prod.map_apply, id_eq]
    by_cases hc : c = '\n'
    · subst hc
      rw [splitLines_cons_break, splitLines_cons_break, splitLines_move stop ps, List.map_cons]
      rfl
    · obtain ⟨line, lines, hs, hcons⟩ := splitLines_cons_of_ne stop hc i ps
      have ih := splitLines_move stop ps
      rw [hs, List.map_cons] at ih
      obtain ⟨line', lines', hs', hcons'⟩ := splitLines_cons_of_ne (f stop) hc (f i) (ps.map (Prod.map id f))
      rw [ih, List.cons.injEq] at hs'
      rw [hcons, hcons', ← hs'.1, ← hs'.2]
      rfl

end

/-! ## Where the characters that are read begin -/

/-- The place at which the `k`-th character that is read begins; behind the last one, the end. -/
def origin (source : List Char) (k : Nat) : Nat := ((place source).map Prod.snd).getD k source.length

theorem not_mem_unifyBreaks (cs : List Char) : '\r' ∉ unifyBreaks cs := by
  fun_induction unifyBreaks cs with
  | case1 => simp
  | case2 cs ih => simp [ih]
  | case3 cs _ ih => simp [ih]
  | case4 c cs _ hr ih =>
    have hr : c ≠ '\r' := hr
    simp [ih, Ne.symm hr]

theorem placeFrom_of_not_mem {i : Nat} {cs : List Char} (h : '\r' ∉ cs) : placeFrom i cs = cs.zipIdx i := by
  fun_induction placeFrom i cs with
  | case1 => rfl
  | case2 => simp at h
  | case3 => simp at h
  | case4 i c cs _ _ ih => rw [List.zipIdx_cons, ih fun hm => h (List.mem_cons_of_mem c hm)]

/-- What is read of a source is what is read of its text with LF, at other places. -/
theorem place_unifyBreaks (source : List Char) :
    place source = (place (unifyBreaks source)).map (Prod.map id (origin source)) := by
  have htext : (place source).map Prod.fst = unifyBreaks source := placeFrom_map_fst 0 source
  have hflat : place (unifyBreaks source) = (unifyBreaks source).zipIdx :=
    placeFrom_of_not_mem (not_mem_unifyBreaks source)
  rw [hflat, ← htext]
  refine List.ext_getElem? fun k => ?_
  unfold origin
  rw [List.getElem?_map, List.getElem?_zipIdx, List.getElem?_map]
  cases hk : (place source)[k]? with
  | none => rfl
  | some p => simp [List.getD, hk]

theorem origin_length (source : List Char) : origin source (unifyBreaks source).length = source.length := by
  have hlen : (place source).length = (unifyBreaks source).length := by
    rw [← placeFrom_map_fst 0 source, List.length_map, place]
  unfold origin
  simp [List.getD, ← hlen]

theorem kept_unifyBreaks (strip : Bool) (source : List Char) :
    kept strip source = (kept strip (unifyBreaks source)).map (Prod.map id (origin source)) := by
  cases strip with
  | false => exact place_unifyBreaks source
  | true =>
    show stripComments (place source) = (stripComments (place (unifyBreaks source))).map _
    rw [stripComments, stripComments, place_unifyBreaks source]
    exact (map_strip_of (fun _ => rfl) _).symm

/-- **The lines of a source are those of its text with LF, moved.** -/
theorem prepare_unifyBreaks (strip : Bool) (source : List Char) :
    prepare strip source = (prepare strip (unifyBreaks source)).map (Line.move (origin source)) := by
  rw [prepare_eq, prepare_eq, ← splitLines_move, origin_length, ← kept_unifyBreaks]

/-! ## Places that correspond -/

/-- **One place in both texts**: place `i` divides the source as place `k` divides its text with LF.  No place inside of
a line break does. -/
structure SamePlace (source : List Char) (i k : Nat) : Prop where
  before : unifyBreaks (source.take i) = (unifyBreaks source).take k
  behind : unifyBreaks (source.drop i) = (unifyBreaks source).drop k

theorem unifyBreaks_return {cs : List Char} (h : ∀ ds, cs ≠ '\n' :: ds) :
    unifyBreaks ('\r' :: cs) = '\n' :: unifyBreaks cs := by
  rw [unifyBreaks]
  exact fun ds hds => h ds hds

theorem unifyBreaks_other {c : Char} (hc : c ≠ '\r') (cs : List Char) :
    unifyBreaks (c :: cs) = c :: unifyBreaks cs := by
  rw [unifyBreaks]
  · exact fun ds hcr _ => hc hcr
  · exact fun hcr => hc hcr

theorem SamePlace.zero (cs : List Char) : SamePlace cs 0 0 := ⟨rfl, rfl⟩

/-- Behind a word that is read as one character, whatever part of the rest follows it, places go on as in the rest. -/
theorem SamePlace.behind_word {word rest : List Char} {c : Char} {n k : Nat}
    (hword : ∀ m, unifyBreaks (word ++ rest.take m) = c :: unifyBreaks (rest.take m)) (h : SamePlace rest n k) :
    SamePlace (word ++ rest) (word.length + n) (k + 1) := by
  have hall : unifyBreaks (word ++ rest) = c :: unifyBreaks rest := by
    have := hword rest.length
    rwa [List.take_length] at this
  constructor
  · rw [List.take_length_add_append, hword, h.before, hall, List.take_succ_cons]
  · rw [List.drop_length_add_append, h.behind, hall, List.drop_succ_cons]

/-- One word more in front: the places of the rest are known, and the word begins at `i`. -/
theorem SamePlace.exists_cons {i stop : Nat} {c : Char} {word rest : List Char} {places : List Nat}
    (hword : ∀ m, unifyBreaks (word ++ rest.take m) = c :: unifyBreaks (rest.take m))
    (hrest : ∀ {k}, k ≤ (unifyBreaks rest).length →
      ∃ n, places.getD k stop = i + word.length + n ∧ SamePlace rest n k)
    {k : Nat} (hk : k ≤ (unifyBreaks rest).length + 1) :
    ∃ n, (i :: places).getD k stop = i + n ∧ SamePlace (word ++ rest) n k := by
  cases k with
  | zero => exact ⟨0, rfl, .zero _⟩
  | succ k =>
    obtain ⟨n, hn, hsame⟩ := hrest (Nat.le_of_succ_le_succ hk)
    refine ⟨word.length + n, ?_, hsame.behind_word hword⟩
    rw [List.getD_cons_succ, hn, Nat.add_assoc]

theorem samePlace_of_placeFrom {i stop : Nat} {cs : List Char} : ∀ {k : Nat}, k ≤ (unifyBreaks cs).length →
    i + cs.length = stop → ∃ n, ((placeFrom i cs).map Prod.snd).getD k stop = i + n ∧ SamePlace cs n k := by
  fun_induction placeFrom i cs with
  | case1 i =>
    intro k hk hstop
    obtain rfl : k = 0 := Nat.le_zero.1 hk
    exact ⟨0, hstop.symm, .zero []⟩
  | case2 i cs ih =>
    intro k hk hstop
    have hrest : i + 2 + cs.length = stop := by
      rw [← hstop, List.length_cons, List.length_cons]
      omega
    have hword : ∀ m, unifyBreaks (['\r', '\n'] ++ cs.take m) = '\n' :: unifyBreaks (cs.take m) := fun _ => rfl
    exact SamePlace.exists_cons hword (fun hk => ih hk hrest) hk
  | case3 i cs hcs ih =>
    intro k hk hstop
    have hrest : i + 1 + cs.length = stop := by
      rw [← hstop, List.length_cons]
      omega
    have hword : ∀ m, unifyBreaks (['\r'] ++ cs.take m) = '\n' :: unifyBreaks (cs.take m) := by
      intro m
      refine unifyBreaks_return fun ds hds => hcs (ds ++ cs.drop m) ?_
      have hds : cs.take m = '\n' :: ds := hds
      rw [← List.cons_append, ← hds, List.take_append_drop]
    rw [unifyBreaks_return hcs] at hk
    exact SamePlace.exists_cons hword (fun hk => ih hk hrest) hk
  | case4 i c cs _ hr ih =>
    intro k hk hstop
    have hrest : i + 1 + cs.length = stop := by
      rw [← hstop, List.length_cons]
      omega
    have hword : ∀ m, unifyBreaks ([c] ++ cs.take m) = c :: unifyBreaks (cs.take m) :=
      fun m => unifyBreaks_other hr (cs.take m)
    rw [unifyBreaks_other hr] at hk
    exact SamePlace.exists_cons hword (fun hk => ih hk hrest) hk

theorem samePlace_origin {source : List Char} {k : Nat} (hk : k ≤ (unifyBreaks source).length) :
    SamePlace source (origin source k) k := by
  obtain ⟨n, hn, hsame⟩ := samePlace_of_placeFrom (i := 0) hk (Nat.zero_add _)
  rw [Nat.zero_add] at hn
  unfold origin place
  rw [hn]
  exact hsame

/-! ## Compiling -/

/-- **A source compiles as its text with LF does**, with its fault where that text has it. -/
theorem compile_eq_mapError (o : Options) (source : List Char) :
    compile o source = (compile o (unifyBreaks source)).mapError (Fault.move (origin source)) := by
  unfold compile compileAll
  simp only
  rw [prepare_unifyBreaks, readLines_move]
  cases readLines o.compact (prepare o.compact (unifyBreaks source)) with
  | mk r result => cases result <;> rfl

/-- **How lines are broken never matters.**  A source and its text with LF compile to the same CSS, or both fail from
the same cause, each where that one character stands.  Such a pair is what standard input and a file yield of one
text. -/
theorem compile_unifyBreaks (o : Options) (source : List Char) :
    ((∃ css, compile o source = .ok css ∧ compile o (unifyBreaks source) = .ok css) ∨
      ∃ cause i k c, compile o source = .error { cause := cause, index := i } ∧
        compile o (unifyBreaks source) = .error { cause := cause, index := k } ∧
        SamePlace source i k ∧ source[i]? = some c ∧ (unifyBreaks source)[k]? = some c) ∧
    ∀ (w : World) (path : String) (bytes : List UInt8) (written : Moment), w.stdin = .ok source →
      w.files.find w.here (Path.ofString path) = .ok (some (.file bytes written)) → Utf8.decodeFile bytes = .ok source →
        (w.read .standard).2 = .ok source ∧ (w.read (.file path)).2 = .ok (unifyBreaks source) := by
  constructor
  · have hmove := compile_eq_mapError o source
    cases hflat : compile o (unifyBreaks source) with
    | ok css =>
      rw [hflat] at hmove
      exact Or.inl ⟨css, hmove, rfl⟩
    | error flat =>
      rw [hflat] at hmove
      obtain ⟨-, -, -, line, -, -, hl, hb, hoffset, -⟩ := exists_line_of_compile hflat
      obtain ⟨hlt, hhead⟩ := prepare_head? hl hb
      -- the same line of the source begins with the same character
      have hmoved : line.move (origin source) ∈ prepare o.compact source := by
        rw [prepare_unifyBreaks]
        exact List.mem_map_of_mem hl
      obtain ⟨-, hhead'⟩ := prepare_head? hmoved hb
      rw [Line.move_offset, Line.move_text] at hhead'
      rw [hoffset] at hlt hhead hhead'
      have hc : (unifyBreaks source)[flat.index]? = some (unifyBreaks source)[flat.index] :=
        List.getElem?_eq_getElem hlt
      have hsame : SamePlace source (origin source flat.index) flat.index := samePlace_origin (Nat.le_of_lt hlt)
      exact Or.inr ⟨flat.cause, origin source flat.index, flat.index, _, hmove, rfl, hsame,
        (hhead'.trans hhead.symm).trans hc, hc⟩
  · intro w path bytes written hstdin hfind hdecode
    constructor
    · simp [World.read, hstdin, Except.mapError]
    · simp [World.read, hfind, Utf8.readText, hdecode, Except.map, Except.mapError]

/-- A lone CR, a CRLF and a lone CR again, in a source that is refused; and its text on standard input and in a file. -/
theorem compile_unifyBreaks_mixed :
    let source := "a\r\r\n  b\r   c".toList
    let bytes := Utf8.encode source
    let w : World := { here := [], stdin := .ok source,
                       disk := { files := { entries := [([['f']], .file bytes (.serial 0))] } } }
    compile {} source = .error { cause := .offStep, index := 8 } ∧
      compile {} (unifyBreaks source) = .error { cause := .offStep, index := 7 } ∧ SamePlace source 8 7 ∧
      (w.read .standard).2 = .ok source ∧ (w.read (.file "f")).2 = .ok (unifyBreaks source) := by
  intro source bytes w
  have hfail : compile {} source = .error { cause := .offStep, index := 8 } :=
    (@compile_error_iff {} source _).2 (by decide)
  have hflat : compile {} (unifyBreaks source) = .error { cause := .offStep, index := 7 } :=
    (@compile_error_iff {} (unifyBreaks source) _).2 (by decide)
  have hdecode : Utf8.decodeFile bytes = .ok source := by decide
  have hfind : w.files.find w.here (Path.ofString "f") = .ok (some (.file bytes (.serial 0))) := by decide
  obtain ⟨hcompile, hread⟩ := compile_unifyBreaks {} source
  refine ⟨hfail, hflat, ?_, hread w "f" bytes (.serial 0) rfl hfind hdecode⟩
  rcases hcompile with ⟨css, hok, -⟩ | ⟨cause, i, k, c, hi, hk, hsame, -⟩
  · rw [hfail] at hok
    cases hok
  · rw [hfail] at hi
    rw [hflat] at hk
    cases hi
    cases hk
    exact hsame

end Offside
