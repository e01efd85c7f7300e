import Mathlib.Data.List.Nodup
import Offside.Config.Settings
import Offside.Proofs.Doubles

/-!
# The project files that are accepted

Every check of a project file looks at the value under one key, so a file is accepted exactly if each of these values is
as asked (`ofEntries_accepts_iff`) and every key can be shown.  What is asked of a value is said here without the checks,
as a predicate for each kind of value.

The checks see a file only through the values under its known keys (`ofEntries_congr`).  In a mapping whose keys are
distinct these values do not depend on the order of the entries or on other keys (`SameUnder.get?_eq`).
-/
namespace Offside.Config

/-! ## What a key and a value may be -/

/-- Every whole number in the key is one that can be shown. -/
def Key.Shown (key : Key) : Prop :=
  ∀ n, key = .scalar (.int n) ∨ (∃ items, key = .row items ∧ .int n ∈ items) → n.natAbs < 10 ^ digitLimit

def Entries.Shown (entries : Entries) : Prop := ∀ e ∈ entries, e.1.Shown

/-- A number of spaces that a text can have, or a text. -/
inductive IsIndent : Value → Prop
  | spaces (n : Int) (lower : 0 ≤ n) (upper : n < textLimit) : IsIndent (.scalar (.int n))
  | text (cs : List Char) : IsIndent (.scalar (.text cs))

/-- A text that is not blank. -/
inductive IsSelector : Value → Prop
  | text (cs : List Char) (seen : ∃ c ∈ cs, isBlank c = false) : IsSelector (.scalar (.text cs))

inductive IsFlag : Value → Prop
  | bool (b : Bool) : IsFlag (.scalar (.bool b))

/-- A number that is not below zero and, if it is a whole number, has a double. -/
inductive IsSeconds : Value → Prop
  | whole (n : Int) (lower : 0 ≤ n) (upper : n < Number.doubleLimit) : IsSeconds (.scalar (.int n))
  | float (x : Float) (lower : ¬ x < 0) : IsSeconds (.scalar (.float x))

/-- The value under a key, if there is one, is as asked. -/
def Entries.Allows (entries : Entries) (key : String) (asked : Value → Prop) : Prop :=
  ∀ v, entries.get? key = some v → asked v

/-- A mapping with sound times, or any value that counts as nothing. -/
inductive IsWatch : Value → Prop
  | null : IsWatch (.scalar .null)
  | off : IsWatch (.scalar (.bool false))
  | zero : IsWatch (.scalar (.int 0))
  | zeroFloat (x : Float) (zero : (x == 0) = true) : IsWatch (.scalar (.float x))
  | emptyText : IsWatch (.scalar (.text []))
  | emptyList : IsWatch (.list [])
  | mapping (watch : Entries) (interval : watch.Allows "interval" IsSeconds)
      (debounce : watch.Allows "debounce" IsSeconds) : IsWatch (.map watch)

/-- Every key can be shown, and every known key that is there has a value as asked. -/
structure Acceptable (entries : Entries) : Prop where
  shown : entries.Shown
  indent : entries.Allows "indent" IsIndent
  rootSelector : entries.Allows "root_selector" IsSelector
  minify : entries.Allows "minify" IsFlag
  compact : entries.Allows "compact" IsFlag
  hoverGuard : entries.Allows "hover_guard" IsFlag
  watch : entries.Allows "watch" IsWatch

/-! ## Single checks -/

theorem Scalar.showable_iff (s : Scalar) : s.showable = true ↔ ∀ n, s = .int n → n.natAbs < 10 ^ digitLimit := by
  cases s <;> simp [showable]

theorem Key.showable_iff (key : Key) : key.showable = true ↔ key.Shown := by
  cases key with
  | scalar s => simp [showable, Shown, Scalar.showable_iff]
  | row items =>
    simp only [showable, Shown, List.all_eq_true, Scalar.showable_iff]
    constructor
    · rintro h n (hn | ⟨_, hrow, hn⟩)
      · cases hn
      · cases hrow
        exact h _ hn n rfl
    · rintro h s hs n rfl
      exact h n (.inr ⟨items, rfl, hs⟩)

theorem Entries.showable_iff (entries : Entries) : (entries.all fun e => e.1.showable) = true ↔ entries.Shown := by
  simp only [List.all_eq_true, Key.showable_iff]
  rfl

theorem indentOf_accepts_iff (v : Value) : (∃ cs, indentOf v = .ok cs) ↔ IsIndent v := by
  constructor
  · rintro ⟨cs, h⟩
    unfold indentOf at h
    split at h
    · rename_i n
      split at h
      · cases h
      · rename_i hlower
        unfold spaces at h
        split at h
        · rename_i hupper
          exact .spaces n (Int.not_lt.1 hlower) hupper
        · split at h <;> cases h
    · exact .text _
    · cases h
  · rintro (⟨n, hlower, hupper⟩ | ⟨cs⟩)
    · exact ⟨List.replicate n.toNat ' ', by simp [indentOf, spaces, Int.not_lt.2 hlower, hupper]⟩
    · exact ⟨cs, rfl⟩

theorem rootSelectorOf_accepts_iff (v : Value) : (∃ cs, rootSelectorOf v = .ok cs) ↔ IsSelector v := by
  constructor
  · rintro ⟨cs, h⟩
    unfold rootSelectorOf at h
    split at h
    · split at h
      · cases h
      · rename_i hseen
        exact .text _ (by simpa [allBlank] using hseen)
    · cases h
  · rintro ⟨cs, hseen⟩
    have hnot : ¬ allBlank cs = true := by simpa [allBlank] using hseen
    exact ⟨trim cs, if_neg hnot⟩

theorem flagOf_accepts_iff (key : String) (v : Value) : (∃ b, flagOf key v = .ok b) ↔ IsFlag v := by
  constructor
  · rintro ⟨b, h⟩
    unfold flagOf at h
    split at h
    · exact .bool _
    · cases h
  · rintro ⟨b⟩
    exact ⟨b, rfl⟩

theorem secondsOf_accepts_iff (key : String) (v : Value) : (∃ x, secondsOf key v = .ok x) ↔ IsSeconds v := by
  have hdouble (n : Nat) : (∃ x, Number.ofNat? n = some x) ↔ n < Number.doubleLimit := by
    rw [← Option.ne_none_iff_exists', ne_eq, Number.ofNat?_eq_none_iff, Nat.not_le]
  constructor
  · rintro ⟨x, h⟩
    unfold secondsOf at h
    split at h
    · rename_i n
      split at h
      · cases h
      · split at h
        · rename_i y hy
          have hupper := (hdouble n.toNat).1 ⟨y, hy⟩
          exact .whole n (by omega) (by omega)
        · cases h
    · split at h
      · cases h
      · rename_i hlower
        exact .float _ hlower
    · cases h
  · rintro (⟨n, hlower, hupper⟩ | ⟨x, hlower⟩)
    · obtain ⟨x, hx⟩ := (hdouble n.toNat).2 (by omega)
      exact ⟨x, by simp [secondsOf, Int.not_lt.2 hlower, hx]⟩
    · exact ⟨x, if_neg hlower⟩

/-! ## The chain of checks -/

theorem bind_eq_ok_iff {α β : Type} {x : Except Refusal α} {f : α → Except Refusal β} {b : β} :
    x >>= f = .ok b ↔ ∃ a, x = .ok a ∧ f a = .ok b := by
  cases x with
  | error r => simp [bind, Except.bind]
  | ok a => simp [bind, Except.bind]

theorem bind_accepts_iff {α β : Type} {x : Except Refusal α} {f : α → Except Refusal β} :
    (∃ b, x >>= f = .ok b) ↔ ∃ a, x = .ok a ∧ ∃ b, f a = .ok b := by
  simp only [bind_eq_ok_iff]
  rw [exists_comm]
  simp only [exists_and_left]

theorem optional_accepts_iff {α : Type} {entries : Entries} {key : String} {f : Value → Except Refusal α}
    {asked : Value → Prop} (hf : ∀ v, (∃ a, f v = .ok a) ↔ asked v) :
    (∃ o, optional entries key f = .ok o) ↔ entries.Allows key asked := by
  unfold optional Entries.Allows
  cases entries.get? key with
  | none => simp
  | some v =>
    simp only [Option.some.injEq, forall_eq', ← hf]
    cases f v <;> simp [Except.map]

theorem Entries.allows_nil (key : String) (asked : Value → Prop) : Entries.Allows [] key asked := by
  intro v h
  cases h

theorem IsWatch.of_isNothing : ∀ {v : Value}, v.isNothing = true → IsWatch v
  | .scalar .null, _ => .null
  | .scalar (.bool false), _ => .off
  | .scalar (.int n), h => by
    obtain rfl : n = 0 := by simpa [Value.isNothing] using h
    exact .zero
  | .scalar (.float x), h => .zeroFloat x h
  | .scalar (.text []), _ => .emptyText
  | .list [], _ => .emptyList
  | .map [], _ => .mapping [] (Entries.allows_nil _ _) (Entries.allows_nil _ _)

/-- An empty mapping counts as nothing, and it is the section it looks like. -/
theorem watchEntries_of_map {entries watch : Entries} (h : entries.get? "watch" = some (.map watch)) :
    watchEntries entries = .ok watch := by
  simp only [watchEntries, h]
  cases watch <;> rfl

theorem watch_accepts_iff (entries : Entries) :
    (∃ watch, watchEntries entries = .ok watch ∧
        watch.Allows "interval" IsSeconds ∧ watch.Allows "debounce" IsSeconds) ↔
      entries.Allows "watch" IsWatch := by
  constructor
  · rintro ⟨watch, h, hinterval, hdebounce⟩ v hv
    simp only [watchEntries, hv] at h
    split at h
    · rename_i hnothing
      exact .of_isNothing hnothing
    · split at h
      · cases h
        exact .mapping watch hinterval hdebounce
      · cases h
  · intro h
    have hnone (hw : watchEntries entries = .ok []) : ∃ watch, watchEntries entries = .ok watch ∧
        watch.Allows "interval" IsSeconds ∧ watch.Allows "debounce" IsSeconds :=
      ⟨[], hw, Entries.allows_nil _ _, Entries.allows_nil _ _⟩
    cases hv : entries.get? "watch" with
    | none => exact hnone (by simp [watchEntries, hv])
    | some v =>
      cases h v hv with
      | mapping watch hinterval hdebounce => exact ⟨watch, watchEntries_of_map hv, hinterval, hdebounce⟩
      | zeroFloat x hzero => exact hnone (by simp [watchEntries, hv, Value.isNothing, hzero])
      | null | off | zero | emptyText | emptyList => exact hnone (by simp [watchEntries, hv, Value.isNothing])

/-- **A mapping whose keys can be shown is accepted exactly if every value under a known key is as asked.** -/
theorem ofEntries_accepts_iff {entries : Entries} (hshown : entries.Shown) :
    (∃ s, Settings.ofEntries entries = .ok s) ↔ Acceptable entries := by
  have hdone (s : Settings) : ∃ t, (pure s : Except Refusal Settings) = .ok t := ⟨s, rfl⟩
  simp only [Settings.ofEntries, bind_accepts_iff, hdone, and_true, exists_and_right,
    optional_accepts_iff indentOf_accepts_iff, optional_accepts_iff rootSelectorOf_accepts_iff,
    optional_accepts_iff (flagOf_accepts_iff _), optional_accepts_iff (secondsOf_accepts_iff _), watch_accepts_iff]
  constructor
  · rintro ⟨hindent, hroot, hminify, hcompact, hhover, hwatch⟩
    exact ⟨hshown, hindent, hroot, hminify, hcompact, hhover, hwatch⟩
  · rintro ⟨-, hindent, hroot, hminify, hcompact, hhover, hwatch⟩
    exact ⟨hindent, hroot, hminify, hcompact, hhover, hwatch⟩

/-! ## Order and unknown keys -/

/-- The entries under the given keys. -/
def Entries.under (keys : List String) (entries : Entries) : Entries :=
  entries.filter fun e => keys.any fun k => e.1 == .named k

/-- Two mappings that have the same entries under the given keys, in whatever order and among whatever others. -/
structure SameUnder (keys : List String) (entries others : Entries) : Prop where
  distinct : (entries.map (·.1)).Nodup
  distinct' : (others.map (·.1)).Nodup
  perm : (entries.under keys).Perm (others.under keys)

theorem get?_under {keys : List String} {key : String} (hkey : key ∈ keys) (entries : Entries) :
    (entries.under keys).get? key = entries.get? key := by
  unfold Entries.get? Entries.under
  induction entries with
  | nil => rfl
  | cons e entries ih =>
    by_cases he : e.1 = .named key
    · have hany : (keys.any fun k => e.1 == .named k) = true := List.any_eq_true.2 ⟨key, hkey, by simp [he]⟩
      rw [List.filter_cons, if_pos hany, List.lookup_cons, List.lookup_cons, ih]
    · have hne : (Key.named key == e.1) = false := by simpa using Ne.symm he
      rw [List.lookup_cons, hne, ← ih, List.filter_cons]
      split
      · rw [List.lookup_cons, hne]
      · rfl

theorem get?_perm {entries others : Entries} (hperm : entries.Perm others)
    (hdistinct : (entries.map (·.1)).Nodup) (key : String) : entries.get? key = others.get? key := by
  unfold Entries.get?
  induction hperm with
  | nil => rfl
  | cons e _ ih => rw [List.lookup_cons, List.lookup_cons, ih (List.nodup_cons.1 hdistinct).2]
  | swap e d es =>
    have hne : d.1 ≠ e.1 := fun h => (List.nodup_cons.1 hdistinct).1 (by simp [h])
    rw [List.lookup_cons, List.lookup_cons, List.lookup_cons, List.lookup_cons]
    by_cases hd : Key.named key = d.1
    · have he : (Key.named key == e.1) = false := by simpa [hd] using hne
      rw [he]
    · have hd' : (Key.named key == d.1) = false := by simpa using hd
      rw [hd']
  | trans h _ ih ih' => rw [ih hdistinct, ih' ((h.map _).nodup_iff.1 hdistinct)]

/-- **Neither the order of the entries nor other keys change what stands under a key.** -/
theorem SameUnder.get?_eq {keys : List String} {entries others : Entries} (h : SameUnder keys entries others)
    {key : String} (hkey : key ∈ keys) : entries.get? key = others.get? key := by
  have hdistinct : ((entries.under keys).map (·.1)).Nodup :=
    h.distinct.sublist (List.filter_sublist.map _)
  rw [← get?_under hkey entries, get?_perm h.perm hdistinct, get?_under hkey]

theorem optional_congr {α : Type} {entries others : Entries} {key : String} (h : entries.get? key = others.get? key)
    (f : Value → Except Refusal α) : optional entries key f = optional others key f := by
  rw [optional, h, optional]

theorem ofEntries_congr {entries others : Entries}
    (h : ∀ key ∈ knownKeys, key ≠ "watch" → entries.get? key = others.get? key)
    (hwatch : watchEntries entries = watchEntries others ∨
      ∃ watch watch', watchEntries entries = .ok watch ∧ watchEntries others = .ok watch' ∧
        ∀ key ∈ ["interval", "debounce"], watch.get? key = watch'.get? key) :
    Settings.ofEntries entries = Settings.ofEntries others := by
  unfold Settings.ofEntries
  rw [optional_congr (h "indent" (by decide) (by decide)), optional_congr (h "root_selector" (by decide) (by decide)),
    optional_congr (h "minify" (by decide) (by decide)), optional_congr (h "compact" (by decide) (by decide)),
    optional_congr (h "hover_guard" (by decide) (by decide))]
  rcases hwatch with hsame | ⟨watch, watch', hw, hw', hkeys⟩
  · rw [hsame]
  · have hinterval := optional_congr (hkeys "interval" (by decide)) (secondsOf "interval")
    have hdebounce := optional_congr (hkeys "debounce" (by decide)) (secondsOf "debounce")
    have hbind (f : Entries → Except Refusal Settings) (es : Entries) : (Except.ok es >>= f) = f es := rfl
    simp only [hw, hw', hbind, hinterval, hdebounce]

theorem ofEntries_congr_known {entries others : Entries} (h : SameUnder knownKeys entries others) :
    Settings.ofEntries entries = Settings.ofEntries others := by
  refine ofEntries_congr (fun key hkey _ => h.get?_eq hkey) (.inl ?_)
  rw [watchEntries, h.get?_eq (by decide), watchEntries]

theorem get?_append_cons (before after : Entries) (key other : String) (v : Value) :
    Entries.get? (before ++ (.named other, v) :: after) key =
      (before.get? key).or (if key = other then some v else after.get? key) := by
  have hnamed : (Key.named key == Key.named other) = decide (key = other) := by
    rw [beq_eq_decide]
    simp only [Key.named, Key.scalar.injEq, Scalar.text.injEq, String.toList_inj]
  unfold Entries.get?
  rw [List.lookup_append, List.lookup_cons, hnamed]
  by_cases h : key = other <;> simp [h]

theorem ofEntries_congr_watch (before after : Entries) {watch watch' : Entries}
    (h : SameUnder ["interval", "debounce"] watch watch') :
    Settings.ofEntries (before ++ (.named "watch", .map watch) :: after) =
      Settings.ofEntries (before ++ (.named "watch", .map watch') :: after) := by
  refine ofEntries_congr (fun key _ hne => ?_) ?_
  · rw [get?_append_cons, get?_append_cons, if_neg hne, if_neg hne]
  · cases hbefore : before.get? "watch" with
    | some v =>
      -- An entry before them has the key already, and neither is looked at.
      refine .inl ?_
      rw [watchEntries, get?_append_cons, watchEntries, get?_append_cons, hbefore]
      rfl
    | none =>
      refine .inr ⟨watch, watch', watchEntries_of_map ?_, watchEntries_of_map ?_, fun _ => h.get?_eq⟩ <;>
        simp [get?_append_cons, hbefore]

/-! ## Compact output -/

theorem optional_flag {entries : Entries} {key : String} {o : Option Bool}
    (h : optional entries key (flagOf key) = .ok o) :
    (∀ b, entries.get? key = some (.scalar (.bool b)) → o = some b) ∧ (entries.get? key = none → o = none) := by
  unfold optional at h
  constructor
  · intro b hb
    rw [hb] at h
    cases h
    rfl
  · intro hnone
    rw [hnone] at h
    cases h
    rfl

/-- What `compact` says goes before what `minify` says. -/
theorem ofEntries_compact {entries : Entries} {s : Settings} (h : Settings.ofEntries entries = .ok s) :
    (∀ b, entries.get? "compact" = some (.scalar (.bool b)) → s.options.compact = b) ∧
    (entries.get? "compact" = none →
      (∀ b, entries.get? "minify" = some (.scalar (.bool b)) → s.options.compact = b) ∧
      (entries.get? "minify" = none → s.options.compact = ({} : Options).compact)) := by
  simp only [Settings.ofEntries, bind_eq_ok_iff] at h
  obtain ⟨_, _, _, _, minify, hminify, compact, hcompact, _, _, _, _, _, _, _, _, hs⟩ := h
  have hvalue : s.options.compact = (compact <|> minify).getD false := by
    cases hs
    rfl
  obtain ⟨hsome, hnone⟩ := optional_flag hcompact
  obtain ⟨hsome', hnone'⟩ := optional_flag hminify
  refine ⟨fun b hb => ?_, fun hc => ⟨fun b hb => ?_, fun hm => ?_⟩⟩
  · rw [hvalue, hsome b hb]
    rfl
  · rw [hvalue, hnone hc, hsome' b hb]
    rfl
  · rw [hvalue, hnone hc, hnone' hm]
    rfl

/-! ## The whole file -/

theorem Settings.ofValue_of_shown {entries : Entries} (h : entries.Shown) : ofValue (.map entries) = ofEntries entries :=
  if_pos ((Entries.showable_iff entries).2 h)

theorem Settings.ofValue_of_not_shown {entries : Entries} (h : ¬entries.Shown) :
    ofValue (.map entries) = .error .keyTooLong :=
  if_neg (mt (Entries.showable_iff entries).1 h)

theorem Settings.ofValue_map_accepts_iff (entries : Entries) :
    (∃ s, ofValue (.map entries) = .ok s) ↔ Acceptable entries := by
  by_cases h : entries.Shown
  · rw [ofValue_of_shown h, ofEntries_accepts_iff h]
  · rw [ofValue_of_not_shown h]
    exact ⟨fun hs => (by simp at hs), fun hs => absurd hs.shown h⟩

/-- What changes neither the settings nor whether all keys can be shown changes nothing. -/
theorem Settings.ofValue_congr {entries others : Entries} (hshown : entries.Shown ↔ others.Shown)
    (h : ofEntries entries = ofEntries others) : ofValue (.map others) = ofValue (.map entries) := by
  by_cases hs : entries.Shown
  · rw [ofValue_of_shown hs, ofValue_of_shown (hshown.1 hs), h]
  · rw [ofValue_of_not_shown hs, ofValue_of_not_shown (mt hshown.2 hs)]

/-- **Exactly the sound project files are accepted**: an empty one, and a mapping in which every key can be shown and every
known key that is there has a value as asked.  The order of the keys changes nothing, nor do unknown keys, in the file and
in its watch section, as long as they can be shown; and `compact` goes before `minify`. -/
theorem Settings.ofValue_accepts_exactly (v : Value) :
    ((∃ s, ofValue v = .ok s) ↔ v = .scalar .null ∨ ∃ entries, v = .map entries ∧ Acceptable entries) ∧
    ∀ entries : Entries, v = .map entries →
      (∀ others, SameUnder knownKeys entries others → (entries.Shown ↔ others.Shown) →
        ofValue (.map others) = ofValue v) ∧
      (∀ before after watch watch', entries = before ++ (.named "watch", .map watch) :: after →
        SameUnder ["interval", "debounce"] watch watch' →
          ofValue (.map (before ++ (.named "watch", .map watch') :: after)) = ofValue v) ∧
      ∀ s, ofValue v = .ok s →
        (∀ b, entries.get? "compact" = some (.scalar (.bool b)) → s.options.compact = b) ∧
        (entries.get? "compact" = none →
          (∀ b, entries.get? "minify" = some (.scalar (.bool b)) → s.options.compact = b) ∧
          (entries.get? "minify" = none → s.options.compact = ({} : Options).compact)) := by
  constructor
  · match v with
    | .scalar .null => exact ⟨fun _ => .inl rfl, fun _ => ⟨{}, rfl⟩⟩
    | .map entries => simp [ofValue_map_accepts_iff]
    | .list _ => simp [ofValue]
    | .scalar (.bool _) | .scalar (.int _) | .scalar (.float _) | .scalar (.date _) | .scalar (.text _) =>
      simp [ofValue]
  · rintro entries rfl
    refine ⟨fun others h hshown => ofValue_congr hshown (ofEntries_congr_known h), ?_, fun s h => ?_⟩
    · rintro before after watch watch' rfl h
      refine ofValue_congr ?_ (ofEntries_congr_watch before after h)
      unfold Entries.Shown
      simp only [List.forall_mem_append, List.forall_mem_cons]
    · have hshown : entries.Shown := ((ofValue_map_accepts_iff entries).1 ⟨s, h⟩).shown
      rw [ofValue_of_shown hshown] at h
      exact ofEntries_compact h

/-- A file with an unknown key, and the same file without it and in another order. -/
theorem Settings.ofValue_accepts_exactly_rearranged :
    Acceptable [(.named "compact", .scalar (.bool false)), (.named "minify", .scalar (.bool true))] ∧
    ∃ s, ofValue (.map [(.named "minify", .scalar (.bool true)), (.named "theme", .scalar .null),
        (.named "compact", .scalar (.bool false))]) = .ok s ∧
      ofValue (.map [(.named "compact", .scalar (.bool false)), (.named "minify", .scalar (.bool true))]) = .ok s ∧
      s.options.compact = false := by
  obtain ⟨s, hs⟩ : ∃ s, ofValue (.map [(.named "compact", .scalar (.bool false)),
      (.named "minify", .scalar (.bool true))]) = .ok s := ⟨_, rfl⟩
  obtain ⟨haccepts, hmap⟩ := ofValue_accepts_exactly (.map [(.named "compact", .scalar (.bool false)),
    (.named "minify", .scalar (.bool true))])
  obtain ⟨hsame, -, hcompact⟩ := hmap _ rfl
  obtain hnull | ⟨_, hentries, hacceptable⟩ := haccepts.1 ⟨s, hs⟩
  · cases hnull
  cases hentries
  refine ⟨hacceptable, s, ?_, hs, (hcompact s hs).1 false rfl⟩
  rw [← hs]
  refine hsame _ ⟨by decide, by decide, .swap _ _ _⟩ (iff_of_true hacceptable.shown ?_)
  exact (Entries.showable_iff _).1 rfl

/-- A watch section that is switched off is no mapping, and is let pass. -/
theorem Settings.ofValue_watch_off :
    ∃ s, ofValue (.map [(.named "watch", .scalar (.bool false))]) = .ok s :=
  ⟨{}, rfl⟩

end Offside.Config
