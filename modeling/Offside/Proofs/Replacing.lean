import Mathlib.Data.List.Basic
import Offside.Build.Run
import Offside.Proofs.Places

/-!
# Replacing a file changes nothing else

Each operation on a tree is told by what every place holds afterwards.  From there, replacing a file leaves either the new
bytes at the target (`FileTree.replaceFile_ok`) or the target as it was (`FileTree.replaceFile_error`).  Beyond that only
directories on the way to the target are made and what lay at the temporary path is lost.
-/
namespace Offside

namespace FileTree

/-! ## Single operations -/

theorem ne_nil_of_get? {t : FileTree} {q : Place} (h : ∀ n, t.get? q ≠ some (.directory n)) : q ≠ [] := by
  rintro rfl
  exact h 0 rfl

theorem makeDirectory_ok {t after : FileTree} {here : Place} {p : Path} (h : t.makeDirectory here p = .ok after) :
    t.get? (p.place here) = none ∧
      ∀ q, after.get? q = if q = p.place here then some (.directory t.serial) else t.get? q := by
  unfold makeDirectory at h
  split at h
  · cases h
  · rename_i place hplace
    obtain rfl := locate_ok hplace
    split at h
    · cases h
    · rename_i hnone
      cases h
      exact ⟨hnone, get?_put t _ (ne_nil_of_get? (t := t) (by simp [hnone]))⟩

theorem writeFile_ok {t after : FileTree} {here : Place} {p : Path} {bytes : List UInt8}
    (h : t.writeFile here p bytes = .ok after) :
    t.locate here p = .ok (p.place here) ∧ (∀ n, t.get? (p.place here) ≠ some (.directory n)) ∧
      ∀ q, after.get? q = if q = p.place here then some (.file bytes (.serial t.serial)) else t.get? q := by
  unfold writeFile at h
  split at h
  · cases h
  · rename_i place hplace
    obtain rfl := locate_ok hplace
    split at h
    · cases h
    · rename_i hfree
      cases h
      exact ⟨hplace, hfree, get?_put t _ (ne_nil_of_get? hfree)⟩

theorem moveFile_ok {t after : FileTree} {here : Place} {p target : Path} (h : t.moveFile here p target = .ok after) :
    ∃ bytes written, t.get? (p.place here) = some (.file bytes written) ∧ target.name ≠ Path.upward ∧
      t.locate here target = .ok (target.place here) ∧ (∀ n, t.get? (target.place here) ≠ some (.directory n)) ∧
      ∀ q, after.get? q = if q = target.place here then some (.file bytes written)
        else if q = p.place here then none else t.get? q := by
  unfold moveFile at h
  split at h
  · cases h
  · cases h
  · rename_i source place hsource hplace
    obtain rfl := locate_ok hsource
    obtain rfl := locate_ok hplace
    split at h
    · cases h
    · rename_i hname
      split at h
      · cases h
      · rename_i bytes written hfile hfree
        cases h
        refine ⟨bytes, written, hfile, by simpa using hname, hplace, hfree, fun q => ?_⟩
        rw [get?_put _ _ (ne_nil_of_get? hfree), get?_erase _ (ne_nil_of_get? (t := t) (by simp [hfile]))]
      · cases h
      · cases h

/-- A file that is written leaves all directories as they are. -/
theorem writeFile_keeps {t after : FileTree} {here : Place} {p : Path} {bytes : List UInt8}
    (h : t.writeFile here p bytes = .ok after) : t.Keeps after ∧ after.Keeps t := by
  obtain ⟨-, hfree, hget⟩ := writeFile_ok h
  constructor
  · intro q n hq
    have hne : q ≠ p.place here := by
      rintro rfl
      exact hfree n hq
    rw [hget, if_neg hne, hq]
  · intro q n hq
    rw [hget] at hq
    split at hq
    · cases hq
    · exact hq

theorem moveFile_keeps {t after : FileTree} {here : Place} {p target : Path}
    (h : t.moveFile here p target = .ok after) : t.Keeps after ∧ after.Keeps t := by
  obtain ⟨bytes, written, hfile, -, -, hfree, hget⟩ := moveFile_ok h
  constructor
  · intro q n hq
    have h1 : q ≠ target.place here := by
      rintro rfl
      exact hfree n hq
    have h2 : q ≠ p.place here := by
      rintro rfl
      rw [hfile] at hq
      cases hq
    rw [hget, if_neg h1, if_neg h2, hq]
  · intro q n hq
    rw [hget] at hq
    split at hq
    · cases hq
    · split at hq
      · cases hq
      · exact hq

theorem exists_writeFile {t : FileTree} {here : Place} {p : Path} (hlocate : t.locate here p = .ok (p.place here))
    (hfree : ∀ n, t.get? (p.place here) ≠ some (.directory n)) (bytes : List UInt8) :
    ∃ after, t.writeFile here p bytes = .ok after := by
  unfold writeFile
  rw [hlocate]
  simp only
  exact ⟨_, rfl⟩

theorem exists_moveFile {t : FileTree} {here : Place} {p target : Path} {bytes : List UInt8} {written : Moment}
    (hfile : t.look here p = .ok (.file bytes written)) (hname : target.name ≠ Path.upward)
    (hlocate : t.locate here target = .ok (target.place here))
    (hfree : ∀ n, t.get? (target.place here) ≠ some (.directory n)) :
    ∃ after, t.moveFile here p target = .ok after := by
  obtain ⟨hp, hget⟩ := look_eq_ok.1 hfile
  unfold moveFile
  rw [hp, hlocate]
  simp only [hget]
  rw [if_neg (by simpa using hname)]
  exact ⟨_, rfl⟩

/-! ## Directories on the way -/

/-- A directory was made at `q`. -/
def Made (before after : FileTree) (q : Place) : Prop :=
  before.get? q = none ∧ ∃ n, after.get? q = some (.directory n)

/-- Nothing changes but that directories are made, at places the path `p` leads through. -/
def Grown (here : Place) (p : Path) (before after : FileTree) : Prop :=
  ∀ q, after.get? q = before.get? q ∨ p.Passes here q ∧ Made before after q

theorem Grown.refl (here : Place) (p : Path) (t : FileTree) : Grown here p t t := fun _ => Or.inl rfl

theorem Grown.trans {here : Place} {p : Path} {a b c : FileTree} (h : Grown here p a b) (h' : Grown here p b c) :
    Grown here p a c := by
  intro q
  rcases h' q with hc | ⟨hp, hnone, hdir⟩
  · rcases h q with hb | ⟨hp, hnone, hdir⟩
    · exact Or.inl (hc.trans hb)
    · exact Or.inr ⟨hp, hnone, by rw [hc]; exact hdir⟩
  · rcases h q with hb | ⟨-, hnone', -⟩
    · exact Or.inr ⟨hp, hb.symm.trans hnone, hdir⟩
    · exact Or.inr ⟨hp, hnone', hdir⟩

theorem Grown.mono {here : Place} {root : Nat} {outer names : List Name} {a b : FileTree}
    (h : Grown here ⟨root, outer⟩ a b) (hp : outer <+: names) : Grown here ⟨root, names⟩ a b := by
  intro q
  rcases h q with hq | ⟨hpass, hmade⟩
  · exact Or.inl hq
  · exact Or.inr ⟨hpass.mono hp, hmade⟩

theorem grown_haveDirectory {t after : FileTree} {here : Place} {p : Path} (h : t.haveDirectory here p = .ok after) :
    Grown here p t after := by
  unfold haveDirectory at h
  split at h
  · rename_i hmake
    cases h
    obtain ⟨hnone, hget⟩ := makeDirectory_ok hmake
    intro q
    by_cases hq : q = p.place here
    · subst hq
      exact Or.inr ⟨p.passes_self here, hnone, t.serial, by rw [hget, if_pos rfl]⟩
    · exact Or.inl (by rw [hget, if_neg hq])
  · split at h
    · cases h
      exact Grown.refl here p t
    · cases h

theorem grown_haveAllDirectories (here : Place) (root : Nat) : ∀ (names : List Name) (t : FileTree),
    Grown here ⟨root, names.reverse⟩ t (t.haveAllDirectories here root names).1
  | [], t => Grown.refl _ _ t
  | name :: outer, t => by
    have hprefix : outer.reverse <+: (name :: outer).reverse := by
      rw [List.reverse_cons]
      exact List.prefix_append _ _
    have hgrown := (grown_haveAllDirectories here root outer t).mono hprefix
    rw [haveAllDirectories]
    simp only
    split
    · rename_i hhave
      exact grown_haveDirectory hhave
    · split
      · rename_i hall
        rw [hall] at hgrown
        exact hgrown
      · rename_i hall
        rw [hall] at hgrown
        split
        · rename_i hhave
          exact hgrown.trans (grown_haveDirectory hhave)
        · exact hgrown
    · exact Grown.refl _ _ t

theorem grown_makeDirectories (t : FileTree) (here : Place) (p : Path) :
    Grown here p t (t.makeDirectories here p).1 := by
  have h := grown_haveAllDirectories here p.root p.names.reverse t
  rw [List.reverse_reverse] at h
  exact h

/-- A directory that is there need not be made. -/
theorem makeDirectories_of_look {t : FileTree} {here : Place} {p : Path} {n : Nat}
    (h : t.look here p = .ok (.directory n)) : t.makeDirectories here p = (t, .ok ()) := by
  obtain ⟨hlocate, hget⟩ := look_eq_ok.1 h
  unfold makeDirectories
  cases hnames : p.names.reverse with
  | nil => rfl
  | cons name outer =>
    have hp : (⟨p.root, (name :: outer).reverse⟩ : Path) = p := by rw [← hnames, List.reverse_reverse]
    have hmake : t.makeDirectory here p = .error .existing := by
      unfold makeDirectory
      rw [hlocate]
      simp only [hget]
    have hhave : t.haveDirectory here p = .ok t := by
      unfold haveDirectory
      rw [hmake]
      simp only [h]
    rw [haveAllDirectories]
    simp only [hp, hhave]

/-! ## The temporary file -/

theorem temporaryName_ne (name : Name) : name ++ temporarySuffix ≠ Path.upward := by
  intro h
  have hlength := congrArg List.length h
  rw [List.length_append] at hlength
  have hsuffix : temporarySuffix.length = 8 := by decide
  have hupward : Path.upward.length = 2 := by decide
  omega

theorem place_temporaryFor (here : Place) (target : Path) :
    (temporaryFor target).place here = target.parent.place here ++ [target.name ++ temporarySuffix] :=
  Path.place_withName here target (temporaryName_ne target.name)

theorem place_temporaryFor_ne (here : Place) {target : Path} (h : target.names ≠ []) :
    (temporaryFor target).place here ≠ target.place here := by
  rw [place_temporaryFor]
  intro heq
  by_cases hup : target.name = Path.upward
  · have hplace : target.place here = (target.parent.place here).dropLast := by
      rw [← Path.eq_withName h]
      simp only [Path.place_eq_climb, Path.withName, Path.parent, Path.climb_append, hup, Path.climb,
        List.dropLast_concat]
      rfl
    have hlength := congrArg List.length (heq.trans hplace)
    rw [List.length_dropLast, List.length_append, List.length_singleton] at hlength
    omega
  · have hplace := Path.place_withName here target hup
    rw [Path.eq_withName h, ← heq] at hplace
    have hname := (List.append_inj hplace rfl).2
    have hlength := congrArg List.length (List.singleton_inj.1 hname)
    have hsuffix : temporarySuffix.length = 8 := by decide
    rw [List.length_append] at hlength
    omega

theorem discard_file {t : FileTree} {here : Place} {p : Path} {bytes : List UInt8} {written : Moment}
    (h : t.look here p = .ok (.file bytes written)) (fault : FileFault) :
    (t.discard here p fault).1 = t.erase (p.place here) := by
  obtain ⟨hlocate, hget⟩ := look_eq_ok.1 h
  have hremove : t.removeFile here p = .ok (t.erase (p.place here)) := by
    unfold removeFile
    rw [hlocate]
    simp only [hget]
  unfold discard find
  rw [h]
  simp only [hremove]

/-- What is no file cannot be removed. -/
theorem discard_other {t : FileTree} {here : Place} {p : Path}
    (h : ∀ bytes written, t.look here p ≠ .ok (.file bytes written)) (fault : FileFault) :
    (t.discard here p fault).1 = t := by
  unfold discard
  split
  · rfl
  · rfl
  · split
    · rename_i hremove
      unfold removeFile at hremove
      split at hremove
      · cases hremove
      · rename_i place hplace
        obtain rfl := locate_ok hplace
        split at hremove
        · cases hremove
        · cases hremove
        · rename_i hfile
          exact absurd (look_eq_ok.2 ⟨hplace, hfile⟩) (h _ _)
    · rfl

theorem not_file_of_writeFile {t : FileTree} {here : Place} {p : Path} {bytes : List UInt8} {cause : FileCause}
    (h : t.writeFile here p bytes = .error cause) (old : List UInt8) (written : Moment) :
    t.look here p ≠ .ok (.file old written) := by
  intro hlook
  obtain ⟨hlocate, hget⟩ := look_eq_ok.1 hlook
  unfold writeFile at h
  rw [hlocate] at h
  simp only [hget] at h
  cases h

/-! ## Writing and moving -/

/-- **A failure leaves every place as it was**, except that a file at the temporary path may be gone. -/
theorem writeAndMove_error {t after : FileTree} {here : Place} {target : Path} {bytes : List UInt8}
    {fault : ReplaceFault} (h : t.writeAndMove here target bytes = (after, .error fault)) (q : Place) :
    after.get? q = t.get? q ∨
      q = (temporaryFor target).place here ∧ (∃ old written, t.get? q = some (.file old written)) ∧
        after.get? q = none := by
  unfold writeAndMove at h
  simp only at h
  split at h
  · rename_i cause hwrite
    cases h
    rw [discard_other (not_file_of_writeFile hwrite)]
    exact Or.inl rfl
  · rename_i written hwrite
    obtain ⟨hlocate, hfree, hget⟩ := writeFile_ok hwrite
    split at h
    · cases h
      have hfile : written.get? ((temporaryFor target).place here) = some (.file bytes (.serial t.serial)) := by
        rw [hget, if_pos rfl]
      have hne : (temporaryFor target).place here ≠ [] := ne_nil_of_get? hfree
      rw [discard_file (look_eq_ok.2 ⟨(writeFile_keeps hwrite).1.locate hlocate, hfile⟩), get?_erase _ hne]
      by_cases hq : q = (temporaryFor target).place here
      · rw [if_pos hq]
        cases hbefore : t.get? q with
        | none => exact Or.inl rfl
        | some entry =>
          cases entry with
          | directory n => exact absurd (hq ▸ hbefore) (hfree n)
          | file old moment => exact Or.inr ⟨hq, ⟨old, moment, rfl⟩, rfl⟩
      · left
        rw [if_neg hq, hget, if_neg hq]
    · cases h

/-- **A success leaves the bytes at the target and nothing at the temporary path**, and all else as it was. -/
theorem writeAndMove_ok {t after : FileTree} {here : Place} {target : Path} {bytes : List UInt8}
    (h : t.writeAndMove here target bytes = (after, .ok ())) (hne : target.names ≠ []) :
    (∃ written, after.look here target = .ok (.file bytes written)) ∧
      after.get? ((temporaryFor target).place here) = none ∧
      ∀ q, q ≠ target.place here → q ≠ (temporaryFor target).place here → after.get? q = t.get? q := by
  unfold writeAndMove at h
  simp only at h
  split at h
  · cases h
  · rename_i written hwrite
    obtain ⟨-, -, hget⟩ := writeFile_ok hwrite
    split at h
    · cases h
    · rename_i hmove
      cases h
      obtain ⟨found, moment, hfile, -, hlocate, -, hmoved⟩ := moveFile_ok hmove
      have hbytes : found = bytes := by
        rw [hget, if_pos rfl] at hfile
        cases hfile
        rfl
      subst hbytes
      have hlook : after.look here target = .ok (.file found moment) :=
        look_eq_ok.2 ⟨(moveFile_keeps hmove).1.locate hlocate, by rw [hmoved, if_pos rfl]⟩
      refine ⟨⟨moment, hlook⟩, ?_, fun q h1 h2 => ?_⟩
      · rw [hmoved, if_neg (place_temporaryFor_ne here hne), if_pos rfl]
      · rw [hmoved, if_neg h1, if_neg h2, hget, if_neg h2]

/-- Nothing bars the temporary file, nor moving it to the target. -/
structure Ways (t : FileTree) (here : Place) (target : Path) : Prop where
  name : target.name ≠ Path.upward
  place : t.locate here target = .ok (target.place here)
  free : ∀ n, t.get? (target.place here) ≠ some (.directory n)
  temporary : t.locate here (temporaryFor target) = .ok ((temporaryFor target).place here)
  temporary_free : ∀ n, t.get? ((temporaryFor target).place here) ≠ some (.directory n)

theorem Ways.congr {t after : FileTree} {here : Place} {target : Path} (h : t.Ways here target)
    (hk : t.Keeps after ∧ after.Keeps t) : after.Ways here target where
  name := h.name
  place := hk.1.locate h.place
  free n hn := h.free n (hk.2 _ n hn)
  temporary := hk.1.locate h.temporary
  temporary_free n hn := h.temporary_free n (hk.2 _ n hn)

theorem ways_of_writeAndMove {t after : FileTree} {here : Place} {target : Path} {bytes : List UInt8}
    (h : t.writeAndMove here target bytes = (after, .ok ())) : t.Ways here target ∧ after.Ways here target := by
  unfold writeAndMove at h
  simp only at h
  split at h
  · cases h
  · rename_i written hwrite
    split at h
    · cases h
    · rename_i hmove
      cases h
      obtain ⟨htemporary, hfree, -⟩ := writeFile_ok hwrite
      obtain ⟨-, -, -, hname, hplace, hfree', -⟩ := moveFile_ok hmove
      have hw := writeFile_keeps hwrite
      have hm := moveFile_keeps hmove
      have hways : t.Ways here target :=
        ⟨hname, hw.2.locate hplace, fun n hn => hfree' n (hw.1 _ n hn), htemporary, hfree⟩
      exact ⟨hways, hways.congr ⟨hw.1.trans hm.1, hm.2.trans hw.2⟩⟩

theorem Ways.writeAndMove {t : FileTree} {here : Place} {target : Path} (h : t.Ways here target) (bytes : List UInt8) :
    (t.writeAndMove here target bytes).2 = .ok () := by
  obtain ⟨middle, hwrite⟩ := exists_writeFile h.temporary h.temporary_free bytes
  have hkeeps := writeFile_keeps hwrite
  obtain ⟨-, -, hmiddle⟩ := writeFile_ok hwrite
  have hfile : middle.look here (temporaryFor target) = .ok (.file bytes (.serial t.serial)) :=
    look_eq_ok.2 ⟨hkeeps.1.locate h.temporary, by rw [hmiddle, if_pos rfl]⟩
  obtain ⟨after, hmove⟩ :=
    exists_moveFile hfile h.name (hkeeps.1.locate h.place) (fun n hn => h.free n (hkeeps.2 _ n hn))
  unfold FileTree.writeAndMove
  simp only [hwrite, hmove]

/-! ## Replacing -/

theorem makeDirectories_parent {t : FileTree} {here q : Place} {target : Path} (h : t.locate here target = .ok q) :
    t.makeDirectories here target.parent = (t, .ok ()) := by
  by_cases hne : target.names = []
  · unfold makeDirectories Path.parent
    rw [hne]
    rfl
  · obtain ⟨n, hn⟩ := look_parent h hne
    exact makeDirectories_of_look hn

theorem names_ne_nil {target : Path} (h : target.name ≠ []) : target.names ≠ [] := by
  intro hnil
  rw [Path.name, hnil] at h
  exact h rfl

/-- What can come of replacing a file: the directories on the way cannot be made, the path has no last name, or the
temporary file is written and moved. -/
theorem replaceFile_cases {t after : FileTree} {here : Place} {target : Path} {bytes : List UInt8}
    {answer : Except NoName (Except ReplaceFault Unit)} (h : t.replaceFile here target bytes = (after, answer)) :
    (∃ fault, t.makeDirectories here target.parent = (after, .error fault) ∧ answer = .ok (.error (.file fault))) ∨
    (t.makeDirectories here target.parent = (after, .ok ()) ∧ target.name = [] ∧ answer = .error ⟨target⟩) ∨
    ∃ middle result, t.makeDirectories here target.parent = (middle, .ok ()) ∧ target.name ≠ [] ∧
      middle.writeAndMove here target bytes = (after, result) ∧ answer = .ok result := by
  unfold replaceFile at h
  split at h
  · rename_i fault hmake
    cases h
    exact Or.inl ⟨fault, hmake, rfl⟩
  · rename_i middle hmake
    split at h
    · rename_i hname
      cases h
      exact Or.inr (Or.inl ⟨hmake, by simpa using hname, rfl⟩)
    · rename_i hname
      cases h
      exact Or.inr (Or.inr ⟨middle, _, hmake, by simpa using hname, rfl, rfl⟩)

/-- **A file that is replaced holds the new bytes.**  Directories on the way to it are made, and nothing is left at the
temporary path. -/
theorem replaceFile_ok {t after : FileTree} {here : Place} {target : Path} {bytes : List UInt8}
    (h : t.replaceFile here target bytes = (after, .ok (.ok ()))) :
    (∃ written, after.look here target = .ok (.file bytes written)) ∧
      after.get? ((temporaryFor target).place here) = none ∧
      ∀ q, q ≠ target.place here → q ≠ (temporaryFor target).place here →
        after.get? q = t.get? q ∨ target.parent.Passes here q ∧ Made t after q := by
  have hgrown := grown_makeDirectories t here target.parent
  obtain ⟨_, _, hanswer⟩ | ⟨_, _, hanswer⟩ | ⟨middle, result, hmake, hname, hmoved, hanswer⟩ := replaceFile_cases h
  · cases hanswer
  · cases hanswer
  · cases hanswer
    rw [hmake] at hgrown
    obtain ⟨hlook, htemporary, hframe⟩ := writeAndMove_ok hmoved (names_ne_nil hname)
    refine ⟨hlook, htemporary, fun q h1 h2 => ?_⟩
    have hq := hframe q h1 h2
    rcases hgrown q with hsame | ⟨hpass, hnone, hdir⟩
    · exact Or.inl (hq.trans hsame)
    · exact Or.inr ⟨hpass, hnone, by rw [hq]; exact hdir⟩

/-- **A file that cannot be replaced stays**, and so does everything else, except that directories on the way to it are
made and that a file at the temporary path may be lost. -/
theorem replaceFile_error {t after : FileTree} {here : Place} {target : Path} {bytes : List UInt8} {fault : ReplaceFault}
    (h : t.replaceFile here target bytes = (after, .ok (.error fault))) (q : Place) :
    after.get? q = t.get? q ∨ target.parent.Passes here q ∧ Made t after q ∨
      q = (temporaryFor target).place here ∧ (∃ old written, t.get? q = some (.file old written)) ∧
        after.get? q = none := by
  have hgrown := grown_makeDirectories t here target.parent q
  obtain ⟨_, hmake, _⟩ | ⟨_, _, hanswer⟩ | ⟨middle, result, hmake, -, hmoved, hanswer⟩ := replaceFile_cases h
  · rw [hmake] at hgrown
    exact hgrown.imp_right Or.inl
  · cases hanswer
  · cases hanswer
    rw [hmake] at hgrown
    rcases writeAndMove_error hmoved q with hq | ⟨htemporary, ⟨old, written, hold⟩, hgone⟩
    · rcases hgrown with hsame | ⟨hpass, hnone, hdir⟩
      · exact Or.inl (hq.trans hsame)
      · exact Or.inr (Or.inl ⟨hpass, hnone, by rw [hq]; exact hdir⟩)
    · rcases hgrown with hsame | ⟨-, -, n, hn⟩
      · exact Or.inr (Or.inr ⟨htemporary, ⟨old, written, hsame ▸ hold⟩, hgone⟩)
      · rw [hold] at hn
        cases hn

/-- Whatever the bytes, they can be put at the target. -/
def Writable (here : Place) (target : Path) (t : FileTree) : Prop :=
  ∀ bytes, (t.replaceFile here target bytes).2 = .ok (.ok ())

theorem Ways.writable {t middle : FileTree} {here : Place} {target : Path} (h : middle.Ways here target)
    (hmake : t.makeDirectories here target.parent = (middle, .ok ())) (hname : target.name ≠ []) :
    Writable here target t := by
  intro bytes
  unfold replaceFile
  rw [hmake]
  simp only
  rw [if_neg (by simpa using hname), h.writeAndMove bytes]

/-- Whether a file can be replaced is not up to the bytes, and one that was replaced can be replaced again. -/
theorem writable_of_replaceFile {t after : FileTree} {here : Place} {target : Path} {bytes : List UInt8}
    (h : t.replaceFile here target bytes = (after, .ok (.ok ()))) :
    Writable here target t ∧ Writable here target after := by
  obtain ⟨_, _, hanswer⟩ | ⟨_, _, hanswer⟩ | ⟨middle, result, hmake, hname, hmoved, hanswer⟩ := replaceFile_cases h
  · cases hanswer
  · cases hanswer
  · cases hanswer
    obtain ⟨hways, hagain⟩ := ways_of_writeAndMove hmoved
    exact ⟨hways.writable hmake hname, hagain.writable (makeDirectories_parent hagain.place) hname⟩

theorem writable_of_empty {t : FileTree} {here : Place} {target : Path}
    (h : (t.replaceFile here target []).2 = .ok (.ok ())) : Writable here target t := by
  cases hreplace : t.replaceFile here target [] with
  | mk after answer =>
    rw [hreplace] at h
    cases h
    exact (writable_of_replaceFile hreplace).1

/-- Only a path with a last name can be refused or replaced. -/
theorem names_ne_nil_of_replaceFile {t after : FileTree} {here : Place} {target : Path} {bytes : List UInt8}
    {answer : Except ReplaceFault Unit} (h : t.replaceFile here target bytes = (after, .ok answer)) :
    target.names ≠ [] := by
  intro hnil
  have hmake : t.makeDirectories here target.parent = (t, .ok ()) := by
    rw [makeDirectories, Path.parent, hnil]
    rfl
  obtain ⟨_, hfail, _⟩ | ⟨_, _, hanswer⟩ | ⟨_, _, _, hname, _⟩ := replaceFile_cases h
  · rw [hmake] at hfail
    cases hfail
  · cases hanswer
  · exact names_ne_nil hname hnil

/-- A file at the target outlives every failure to replace it. -/
theorem replaceFile_keeps {t after : FileTree} {here : Place} {target : Path} {bytes old : List UInt8} {written : Moment}
    {answer : Except NoName (Except ReplaceFault Unit)} (h : t.replaceFile here target bytes = (after, answer))
    (hfail : answer ≠ .ok (.ok ())) (hold : t.look here target = .ok (.file old written)) :
    after.look here target = .ok (.file old written) := by
  have hparent := makeDirectories_parent (look_eq_ok.1 hold).1
  obtain ⟨_, hmake, _⟩ | ⟨hmake, _⟩ | ⟨middle, result, hmake, hname, hmoved, rfl⟩ := replaceFile_cases h
  · rw [hparent] at hmake
    cases hmake
  · rw [hparent] at hmake
    cases hmake
    exact hold
  · rw [hparent] at hmake
    cases hmake
    cases result with
    | ok => exact absurd rfl hfail
    | error fault =>
      have hframe := writeAndMove_error hmoved
      have hkeeps : t.Keeps after := by
        intro q n hq
        rcases hframe q with hsame | ⟨-, ⟨bytes, moment, hfile⟩, -⟩
        · exact hsame.trans hq
        · rw [hfile] at hq
          cases hq
      refine hkeeps.look hold ((hframe _).resolve_right fun hlost => ?_)
      exact place_temporaryFor_ne here (names_ne_nil hname) hlost.1.symm

end FileTree

/-! ## Builds -/

namespace World

theorem read_disk (w : World) (input : Stream) : (w.read input).1.disk = w.disk ∧ (w.read input).1.here = w.here := by
  cases input <;> exact ⟨rfl, rfl⟩

theorem compile_error {o : Options} {source : List Char} {fault : Fault} (w : World)
    (h : Offside.compile o source = .error fault) : w.compile o source = (w, .error fault) := by
  unfold Offside.compile at h
  unfold compile
  cases hall : compileAll o source with
  | error found =>
    rw [hall] at h
    cases h
    rfl
  | ok c =>
    rw [hall] at h
    cases h

theorem compile_ok {o : Options} {source css : List Char} (w : World) (h : Offside.compile o source = .ok css) :
    ∃ noted : World, w.compile o source = (noted, .ok css) ∧ noted.disk = w.disk ∧ noted.here = w.here := by
  unfold Offside.compile at h
  unfold compile
  cases hall : compileAll o source with
  | error found =>
    rw [hall] at h
    cases h
  | ok c =>
    rw [hall] at h
    cases h
    exact ⟨_, rfl, rfl, rfl⟩

theorem buildText_error {o : Options} {source : List Char} {fault : Fault} (w : World) (input output : Stream)
    (h : Offside.compile o source = .error fault) :
    ∃ after : World, w.buildText o input output source =
        (after, .ok { input := input, outcome := .compileError source fault }) ∧
      after.disk = w.disk ∧ after.here = w.here := by
  unfold buildText
  rw [compile_error w h]
  exact ⟨_, rfl, rfl, rfl⟩

/-- What is reported of CSS that was to be written. -/
def written (output : Stream) (css : List Char) : Except ReplaceFault Unit → Outcome
  | .ok () => .compiled output (Utf8.encode css).length
  | .error fault => .writeError output (Utf8.encode css).length fault

theorem write_congr {w w' : World} (hdisk : w'.disk = w.disk) (hhere : w'.here = w.here) (css : List Char)
    (output : Stream) : (w'.write css output).1.disk = (w.write css output).1.disk ∧
      (w'.write css output).1.here = w.here ∧ (w'.write css output).2 = (w.write css output).2 := by
  cases output with
  | standard => exact ⟨hdisk, hhere, rfl⟩
  | file path =>
    simp only [write, files, withFiles, hdisk, hhere]
    exact ⟨trivial, trivial, trivial⟩

theorem write_file {w : World} {path : String} {css : List Char} {files : FileTree}
    {answer : Except NoName (Except ReplaceFault Unit)}
    (h : w.files.replaceFile w.here (Path.ofString path) (Utf8.encode css) = (files, answer)) :
    w.write css (.file path) = (w.withFiles files, answer) := by
  rw [write, h]

theorem buildText_ok {o : Options} {source css : List Char} (w : World) (input output : Stream)
    (h : Offside.compile o source = .ok css) :
    ∃ after : World, w.buildText o input output source =
        (after, (w.write css output).2.map fun result => { input := input, outcome := written output css result }) ∧
      after.disk = (w.write css output).1.disk ∧ after.here = w.here := by
  obtain ⟨noted, hcompile, hdisk, hhere⟩ := compile_ok w h
  obtain ⟨hdisk', hhere', hanswer⟩ := write_congr hdisk hhere css output
  unfold buildText
  rw [hcompile, ← hanswer]
  simp only
  cases hwrite : noted.write css output with
  | mk sent answer =>
    rw [hwrite] at hdisk' hhere'
    cases answer with
    | error noName => exact ⟨sent, rfl, hdisk', hhere'⟩
    | ok result =>
      cases result with
      | error fault => exact ⟨_, rfl, hdisk', hhere'⟩
      | ok => exact ⟨_, rfl, hdisk', hhere'⟩

/-- `text` is what a build compiles: the text it was given, or else what it reads. -/
def Takes (w : World) (input : Stream) (source : Option (List Char)) (text : List Char) : Prop :=
  source = some text ∨ source = none ∧ (w.read input).2 = .ok text

theorem noteRead_disk (w : World) (label : String) (fault : ReadFault) : (w.noteRead label fault).disk = w.disk := by
  cases fault <;> rfl

theorem build_cases (w : World) (o : Options) (input output : Stream) (source : Option (List Char)) :
    (∃ fault, (w.build o input output source).1.disk = w.disk ∧
      (w.build o input output source).2 = .ok { input := input, outcome := .readError fault }) ∨
    ∃ (reader : World) (text : List Char), w.Takes input source text ∧ reader.disk = w.disk ∧ reader.here = w.here ∧
      w.build o input output source = reader.buildText o input output text := by
  obtain ⟨hdisk, hhere⟩ := w.read_disk input
  cases source with
  | some text => exact Or.inr ⟨w, text, Or.inl rfl, rfl, rfl, rfl⟩
  | none =>
    unfold build Takes
    cases hread : w.read input with
    | mk reader answer =>
      rw [hread] at hdisk hhere
      cases answer with
      | ok text => exact Or.inr ⟨reader, text, Or.inr ⟨rfl, rfl⟩, hdisk, hhere, rfl⟩
      | error fault => exact Or.inl ⟨fault, (noteRead_disk reader input.name fault).trans hdisk, rfl⟩

/-- **A build replaces its target or leaves it alone.**  A build that succeeds leaves the CSS at its target and no
temporary file.  One that cannot read or compile changes no file.  One that cannot write leaves no new temporary file
and the target as it was, unless the way to the target leads through the target itself and had to be made.  Other
changes are only directories made on the way to the target, and the loss of a file at the temporary path. -/
theorem build_atomic {w after : World} {o : Options} {input : Stream} {output : String} {source : Option (List Char)}
    {r : Report} (h : w.build o input (.file output) source = (after, .ok r)) :
    let target := Path.ofString output
    let place := target.place w.here
    let temporary := (FileTree.temporaryFor target).place w.here
    (r.status = "COMPILED" →
      (∃ text css written, w.Takes input source text ∧ Offside.compile o text = .ok css ∧
        after.files.look w.here target = .ok (.file (Utf8.encode css) written) ∧
        r.bytes? = some (Utf8.encode css).length) ∧
      after.files.get? temporary = none ∧
      ∀ q, q ≠ place → q ≠ temporary →
        after.files.get? q = w.files.get? q ∨ target.parent.Passes w.here q ∧ FileTree.Made w.files after.files q) ∧
    (r.status ∈ ["FILE_NOT_FOUND", "READ_ERROR", "COMPILE_ERROR"] → after.disk = w.disk) ∧
    (r.status = "WRITE_ERROR" →
      (after.files.get? place = w.files.get? place ∨
        target.parent.Passes w.here place ∧ FileTree.Made w.files after.files place) ∧
      (∀ bytes written, after.files.get? temporary = some (.file bytes written) →
        w.files.get? temporary = some (.file bytes written)) ∧
      ∀ q, after.files.get? q = w.files.get? q ∨ target.parent.Passes w.here q ∧ FileTree.Made w.files after.files q ∨
        q = temporary ∧ (∃ bytes written, w.files.get? q = some (.file bytes written)) ∧
          after.files.get? q = none) := by
  intro target place temporary
  obtain ⟨fault, hdisk, hreport⟩ | ⟨reader, text, htakes, hdisk, hhere, hbuild⟩ :=
    w.build_cases o input (.file output) source
  · rw [h] at hdisk hreport
    cases hreport
    refine ⟨fun hs => ?_, fun _ => hdisk, fun hs => ?_⟩
    · cases fault <;> simp [Report.status] at hs
    · cases fault <;> simp [Report.status] at hs
  rw [hbuild] at h
  cases hcompile : Offside.compile o text with
  | error fault =>
    obtain ⟨after', hbuild', hsame, -⟩ := reader.buildText_error input (.file output) hcompile
    rw [hbuild'] at h
    cases h
    exact ⟨fun hs => by simp [Report.status] at hs, fun _ => hsame.trans hdisk, fun hs => by simp [Report.status] at hs⟩
  | ok css =>
    have hreader : reader.files = w.files := congrArg Disk.files hdisk
    cases hreplace : w.files.replaceFile w.here target (Utf8.encode css) with
    | mk files answer =>
      obtain ⟨after', hbuild', hdisk', -⟩ := reader.buildText_ok input (.file output) hcompile
      have hwrite : reader.write css (.file output) = (reader.withFiles files, answer) :=
        write_file (by rw [hreader, hhere, hreplace])
      rw [hbuild', hwrite] at h
      rw [hwrite] at hdisk'
      cases answer with
      | error noName => cases h
      | ok result =>
        cases h
        have hafter : after.files = files := congrArg Disk.files hdisk'
        cases result with
        | ok =>
          obtain ⟨⟨written, hlook⟩, htemporary, hframe⟩ := FileTree.replaceFile_ok hreplace
          rw [hafter]
          refine ⟨fun _ => ⟨⟨text, css, written, htakes, hcompile, hlook, rfl⟩, htemporary, hframe⟩, ?_, ?_⟩
          · intro hs
            simp [Report.status, World.written] at hs
          · intro hs
            simp [Report.status, World.written] at hs
        | error fault =>
          have hframe := FileTree.replaceFile_error hreplace
          have hne := FileTree.names_ne_nil_of_replaceFile hreplace
          rw [hafter]
          refine ⟨fun hs => ?_, fun hs => ?_, fun _ => ⟨?_, fun bytes written hfile => ?_, hframe⟩⟩
          · simp [Report.status, World.written] at hs
          · simp [Report.status, World.written] at hs
          · rcases hframe place with hsame | hmade | ⟨htemporary, -⟩
            · exact Or.inl hsame
            · exact Or.inr hmade
            · exact absurd htemporary.symm (FileTree.place_temporaryFor_ne w.here hne)
          · rcases hframe temporary with hsame | ⟨-, -, n, hn⟩ | ⟨-, -, hgone⟩
            · exact hsame.symm.trans hfile
            · rw [hfile] at hn
              cases hn
            · rw [hfile] at hgone
              cases hgone

/-- Beside a leftover at the temporary path, and through a directory that is made and left again. -/
theorem build_atomic_upward :
    let files : FileTree := { entries := [(["o.boa.tmp".toList], .file [1] (.second 0))] }
    let w : World := { disk := { files := files }, here := [] }
    let source := "a\n  b: c".toList
    let target := Path.ofString "d/../o"
    ∃ after r, w.build {} .standard (.file "d/../o") (some source) = (after, .ok r) ∧ r.status = "COMPILED" ∧
      (∃ text css written, w.Takes .standard (some source) text ∧ Offside.compile {} text = .ok css ∧
        after.files.look w.here target = .ok (.file (Utf8.encode css) written) ∧
        r.bytes? = some (Utf8.encode css).length) ∧
      after.files.get? ((FileTree.temporaryFor target).place w.here) = none := by
  intro files w source target
  have hcompile : Offside.compile {} source = .ok "a \x7b\n  b: c;\n\x7d\n".toList := by decide
  have hdone : (w.write "a \x7b\n  b: c;\n\x7d\n".toList (.file "d/../o")).2 = .ok (.ok ()) := by decide
  obtain ⟨after, hbuild, -⟩ := w.buildText_ok .standard (.file "d/../o") hcompile
  rw [hdone] at hbuild
  have hgiven : w.build {} .standard (.file "d/../o") (some source) = (after, .ok _) := hbuild
  obtain ⟨hcompiled, hgone, -⟩ := (build_atomic hgiven).1 rfl
  exact ⟨after, _, hgiven, rfl, hcompiled, hgone⟩

/-- The way to `a/../a` is made by making `a`, and then there is a directory at the target. -/
theorem build_makes_target :
    let w : World := { here := [] }
    let place := (Path.ofString "a/../a").place w.here
    ∃ after r, w.build {} .standard (.file "a/../a") (some []) = (after, .ok r) ∧ r.status = "WRITE_ERROR" ∧
      w.files.get? place = none ∧ after.files.get? place = some (.directory 0) := by
  intro w place
  let fault : FileFault :=
    { cause := .isDirectory, path := .ofString "a/../a.boa.tmp", target := some (.ofString "a/../a") }
  have hcompile : Offside.compile {} [] = .ok ['\n'] := by decide
  have hfault : (w.write ['\n'] (.file "a/../a")).2 = .ok (.error (.atomic fault)) := by decide
  obtain ⟨after, hbuild, hdisk, -⟩ := w.buildText_ok .standard (.file "a/../a") hcompile
  rw [hfault] at hbuild
  refine ⟨after, _, hbuild, rfl, by decide, ?_⟩
  rw [World.files, hdisk]
  decide

end World

end Offside
