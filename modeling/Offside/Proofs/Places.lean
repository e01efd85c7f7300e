import Offside.File.Replace
import Offside.Proofs.Lines

/-!
# Paths and the places they lead to

Following a path can fail, but where it succeeds it leads to one place only (`Path.place`), whatever the tree.  It goes
through directories alone, so a tree that keeps its directories keeps all the ways in it (`FileTree.Keeps.locate`).
-/
namespace Offside

namespace Path

/-! ## The text of a path -/

theorem pieces_eq_splitOn : ∀ cs : List Char, pieces cs = cs.splitOn '/'
  | [] => rfl
  | c :: cs => by
    rw [pieces, List.splitOn_cons_eq_if_modifyHead, pieces_eq_splitOn cs]
    split
    · rfl
    · cases hs : cs.splitOn '/' with
      | nil => exact absurd hs (List.splitOn_ne_nil _ _)
      | cons name names => rfl

/-- A name that a path can hold: neither empty nor `.`, and without a slash. -/
structure Nameable (name : Name) : Prop where
  ne_nil : name ≠ []
  ne_dot : name ≠ ['.']
  unslashed : '/' ∉ name

/-- A path as reading one gives it. -/
structure Sound (p : Path) : Prop where
  root_le : p.root ≤ 2
  names : ∀ name ∈ p.names, Nameable name

theorem sound_ofChars (cs : List Char) : (ofChars cs).Sound where
  root_le := by
    simp only [ofChars, rootOf]
    split <;> omega
  names := by
    intro name hn
    obtain ⟨hpiece, hkept⟩ := List.mem_filter.1 hn
    rw [pieces_eq_splitOn] at hpiece
    simp only [Bool.and_eq_true, Bool.not_eq_true', List.isEmpty_eq_false_iff, bne_iff_ne, ne_eq] at hkept
    exact ⟨hkept.1, hkept.2, not_mem_of_mem_splitOn hpiece⟩

theorem mem_climb {name : Name} : ∀ {names place : List Name}, name ∈ climb place names → name ∈ place ∨ name ∈ names
  | [], place, h => Or.inl h
  | other :: names, place, h => by
    rw [climb] at h
    rcases mem_climb h with h | h
    · split at h
      · exact Or.inl ((List.dropLast_sublist place).subset h)
      · rcases List.mem_append.1 h with h | h
        · exact Or.inl h
        · exact Or.inr (by rw [List.mem_singleton.1 h]; exact List.mem_cons_self)
    · exact Or.inr (List.mem_cons_of_mem other h)

theorem Sound.resolve {base : Place} {p : Path} (h : p.Sound) (hbase : ∀ name ∈ base, Nameable name) :
    (p.resolve base).Sound := by
  unfold Path.resolve
  split
  · refine ⟨by simp, fun name hn => ?_⟩
    rcases mem_climb hn with hn | hn
    · exact hbase name hn
    · exact h.names name hn
  · refine ⟨h.root_le, fun name hn => ?_⟩
    rcases mem_climb hn with hn | hn
    · cases hn
    · exact h.names name hn

theorem head?_intercalate {names : List Name} (h : ∀ name ∈ names, Nameable name) :
    (['/'].intercalate names).head? ≠ some '/' := by
  cases names with
  | nil => simp
  | cons name names =>
    obtain ⟨hne, -, hslash⟩ := h name List.mem_cons_self
    cases name with
    | nil => exact absurd rfl hne
    | cons c name =>
      have hc : c ≠ '/' := fun hc => hslash (by rw [hc]; exact List.mem_cons_self)
      cases names with
      | nil => simpa using hc
      | cons next names => simpa using hc

theorem takeWhile_slashes {cs : List Char} (h : cs.head? ≠ some '/') (n : Nat) :
    ((List.replicate n '/' ++ cs).takeWhile (· == '/')).length = n := by
  have hslashes : ∀ c ∈ List.replicate n '/', (c == '/') = true := by
    intro c hc
    rw [List.eq_of_mem_replicate hc]
    rfl
  have hcs : cs.takeWhile (· == '/') = [] := by
    cases cs with
    | nil => rfl
    | cons c cs => exact List.takeWhile_cons_of_neg (by simpa using h)
  rw [List.takeWhile_append_of_pos hslashes, hcs, List.append_nil, List.length_replicate]

theorem kept_slashes (cs : List Char) : ∀ n,
    (pieces (List.replicate n '/' ++ cs)).filter (fun name => !name.isEmpty && name != ['.']) =
      (pieces cs).filter fun name => !name.isEmpty && name != ['.']
  | 0 => rfl
  | n + 1 => by
    rw [List.replicate_succ, List.cons_append, pieces, if_pos (by decide), List.filter_cons_of_neg (by decide),
      kept_slashes cs n]

/-- **A path reads back from its text.** -/
theorem Sound.ofChars_text {p : Path} (h : p.Sound) : ofChars p.text = p := by
  obtain ⟨root, names⟩ := p
  have hroot : root ≤ 2 := h.root_le
  by_cases hempty : root = 0 ∧ names = []
  · obtain ⟨rfl, rfl⟩ := hempty
    decide
  have htext : text ⟨root, names⟩ = List.replicate root '/' ++ ['/'].intercalate names := by
    unfold text
    rw [if_neg]
    simpa using hempty
  have hslashes := takeWhile_slashes (head?_intercalate h.names) root
  have hrootOf : rootOf (List.replicate root '/' ++ ['/'].intercalate names) = root := by
    unfold rootOf
    rw [hslashes]
    match root, hroot with
    | 0, _ => rfl
    | 1, _ => rfl
    | 2, _ => rfl
  have hnames : (pieces (['/'].intercalate names)).filter (fun name => !name.isEmpty && name != ['.']) = names := by
    by_cases hne : names = []
    · subst hne
      rfl
    · rw [pieces_eq_splitOn, List.splitOn_intercalate '/' (fun name hn => (h.names name hn).unslashed) hne,
        List.filter_eq_self]
      intro name hn
      obtain ⟨h1, h2, -⟩ := h.names name hn
      simpa using ⟨h1, h2⟩
  rw [htext, ofChars, hrootOf, kept_slashes, hnames]

/-! ## The place of a path -/

/-- The place a path leads to from `here`, if it leads anywhere. -/
def place (here : Place) (p : Path) : Place := (p.resolve here).names

/-- The path leads through `q`, or to it. -/
def Passes (here : Place) (p : Path) (q : Place) : Prop :=
  ∃ names, names <+: p.names ∧ q = place here { p with names := names }

theorem climb_append : ∀ (a b place : List Name), climb place (a ++ b) = climb (climb place a) b
  | [], b, place => rfl
  | name :: a, b, place => by rw [List.cons_append, climb, climb, climb_append a b]

theorem place_eq_climb (here : Place) (p : Path) : p.place here = climb (if p.root = 0 then here else []) p.names := by
  unfold place resolve
  split <;> rfl

theorem place_withName (here : Place) (p : Path) {name : Name} (hn : name ≠ upward) :
    (p.withName name).place here = p.parent.place here ++ [name] := by
  have hclimb : ∀ place : List Name, climb place [name] = place ++ [name] := by
    intro place
    rw [climb, climb, if_neg (by simpa using hn)]
  simp only [place_eq_climb, withName, parent, climb_append, hclimb]

theorem eq_withName {p : Path} (h : p.names ≠ []) : p.withName p.name = p := by
  unfold withName name
  rw [List.getLast?_eq_some_getLast h, Option.getD_some, List.dropLast_concat_getLast]

theorem isPrefix_intercalate (rest : List Name) : ∀ outer : List Name,
    ['/'].intercalate outer <+: ['/'].intercalate (outer ++ rest)
  | [] => List.nil_prefix
  | [name] => by
    cases rest with
    | nil => exact List.prefix_rfl
    | cons next rest => simp
  | name :: next :: outer => by
    simp only [List.cons_append, List.intercalate_cons_cons]
    exact (List.prefix_append_right_inj _).2 (isPrefix_intercalate rest (next :: outer))

/-- A path that can be asked for. -/
def Short (p : Path) : Prop := utf8Length p.text ≤ FileTree.pathLimit

/-- What a short path leads through can be asked for too. -/
theorem Short.of_append {root : Nat} {outer rest : List Name} (h : Short ⟨root, outer ++ rest⟩) : Short ⟨root, outer⟩ := by
  unfold Short text at h ⊢
  split
  · decide
  · rename_i hne
    have hwhole : ¬((root = 0 && (outer ++ rest).isEmpty) = true) := by
      simp only [Bool.and_eq_true, decide_eq_true_eq, List.isEmpty_iff, not_and] at hne ⊢
      intro hroot happend
      exact hne hroot (List.append_eq_nil_iff.1 happend).1
    rw [if_neg hwhole] at h
    obtain ⟨more, hmore⟩ := isPrefix_intercalate rest outer
    rw [← hmore, ← List.append_assoc, utf8Length_append] at h
    exact Nat.le_trans (Nat.le_add_right _ _) h

theorem passes_self (here : Place) (p : Path) : p.Passes here (p.place here) := ⟨p.names, List.prefix_rfl, rfl⟩

theorem Passes.mono {here q : Place} {root : Nat} {outer names : List Name}
    (h : Path.Passes here ⟨root, outer⟩ q) (hp : outer <+: names) : Path.Passes here ⟨root, names⟩ q := by
  obtain ⟨some, hsome, hq⟩ := h
  exact ⟨some, hsome.trans hp, hq⟩

end Path

namespace FileTree

/-! ## Following a path -/

theorem walk_append (t : FileTree) : ∀ (a b : List Name) (place : Place),
    t.walk place (a ++ b) = (t.walk place a).bind fun q => t.walk q b
  | [], b, place => rfl
  | name :: a, b, place => by
    rw [List.cons_append, walk, walk]
    split
    · rfl
    · rfl
    · split
      · exact walk_append t a b _
      · split
        · rfl
        · exact walk_append t a b _

theorem walk_ok {t : FileTree} : ∀ {names : List Name} {place q : Place}, t.walk place names = .ok q →
    q = Path.climb place names
  | [], place, q, h => by
    rw [walk, Except.ok.injEq] at h
    exact h.symm
  | name :: names, place, q, h => by
    rw [walk] at h
    rw [Path.climb]
    split at h
    · cases h
    · cases h
    · split at h
      · rename_i hup
        rw [if_pos hup]
        exact walk_ok h
      · rename_i hup
        rw [if_neg hup]
        split at h
        · cases h
        · exact walk_ok h

theorem locate_of_short {p : Path} (h : p.Short) (t : FileTree) (here : Place) :
    t.locate here p = t.walk (if p.root = 0 then here else []) p.names := if_neg (Nat.not_lt.2 h)

theorem locate_eq_ok {t : FileTree} {here q : Place} {p : Path} :
    t.locate here p = .ok q ↔ p.Short ∧ t.walk (if p.root = 0 then here else []) p.names = .ok q := by
  by_cases h : p.Short
  · rw [locate_of_short h]
    exact ⟨fun hw => ⟨h, hw⟩, fun hw => hw.2⟩
  · rw [locate, if_pos (Nat.not_le.1 h)]
    exact ⟨fun hw => (by cases hw), fun hw => absurd hw.1 h⟩

theorem locate_ok {t : FileTree} {here q : Place} {p : Path} (h : t.locate here p = .ok q) : q = p.place here := by
  rw [Path.place_eq_climb]
  exact walk_ok (locate_eq_ok.1 h).2

/-- Where a path leads to an entry, this is the entry at its place. -/
theorem look_eq_ok {t : FileTree} {here : Place} {p : Path} {entry : Entry} :
    t.look here p = .ok entry ↔ t.locate here p = .ok (p.place here) ∧ t.get? (p.place here) = some entry := by
  unfold look
  constructor
  · intro h
    split at h
    · cases h
    · rename_i q hq
      obtain rfl := locate_ok hq
      split at h
      · cases h
      · rename_i e he
        cases h
        exact ⟨hq, he⟩
  · rintro ⟨hq, he⟩
    rw [hq]
    simp only [he]

/-- `after` has all directories of `before`. -/
def Keeps (before after : FileTree) : Prop :=
  ∀ q n, before.get? q = some (.directory n) → after.get? q = some (.directory n)

theorem Keeps.trans {a b c : FileTree} (h : a.Keeps b) (h' : b.Keeps c) : a.Keeps c :=
  fun q n hq => h' q n (h q n hq)

theorem Keeps.walk {before after : FileTree} (h : before.Keeps after) : ∀ {names : List Name} {place q : Place},
    before.walk place names = .ok q → after.walk place names = .ok q
  | [], _, _, hw => hw
  | name :: names, place, q, hw => by
    rw [FileTree.walk] at hw ⊢
    split at hw
    · cases hw
    · cases hw
    · rename_i n hn
      rw [h place n hn]
      simp only
      split at hw
      · rename_i hup
        rw [if_pos hup]
        exact h.walk hw
      · rename_i hup
        rw [if_neg hup]
        split at hw
        · cases hw
        · rename_i hlong
          rw [if_neg hlong]
          exact h.walk hw

theorem Keeps.locate {before after : FileTree} (h : before.Keeps after) {here q : Place} {p : Path}
    (hp : before.locate here p = .ok q) : after.locate here p = .ok q := by
  rw [locate_eq_ok] at hp ⊢
  exact ⟨hp.1, h.walk hp.2⟩

/-- What a path leads to goes on to be there if its place is not touched. -/
theorem Keeps.look {before after : FileTree} (h : before.Keeps after) {here : Place} {p : Path} {entry : Entry}
    (hp : before.look here p = .ok entry) (hsame : after.get? (p.place here) = before.get? (p.place here)) :
    after.look here p = .ok entry := by
  rw [look_eq_ok] at hp ⊢
  exact ⟨h.locate hp.1, hsame.trans hp.2⟩

/-- The way to an entry goes through the directory it lies in. -/
theorem look_parent {t : FileTree} {here q : Place} {p : Path} (hp : t.locate here p = .ok q) (hne : p.names ≠ []) :
    ∃ n, t.look here p.parent = .ok (.directory n) := by
  obtain ⟨hshort, hp⟩ := locate_eq_ok.1 hp
  have hparentShort : p.parent.Short := by
    have hcut : p = ⟨p.root, p.names.dropLast ++ [p.names.getLast hne]⟩ := by rw [List.dropLast_concat_getLast hne]
    rw [hcut] at hshort
    exact hshort.of_append
  rw [← List.dropLast_concat_getLast hne, walk_append] at hp
  cases hparent : t.walk (if p.root = 0 then here else []) p.names.dropLast with
  | error cause =>
    rw [hparent] at hp
    cases hp
  | ok place =>
    rw [hparent, Except.bind, walk] at hp
    have hlocate : t.locate here p.parent = .ok place := locate_eq_ok.2 ⟨hparentShort, hparent⟩
    obtain rfl := locate_ok hlocate
    split at hp
    · cases hp
    · cases hp
    · rename_i n hn
      exact ⟨n, look_eq_ok.2 ⟨hlocate, hn⟩⟩

end FileTree

end Offside
