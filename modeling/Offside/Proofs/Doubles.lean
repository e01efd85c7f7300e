import Mathlib
import Offside.Number.Text

/-!
# Whole numbers as doubles

A whole number is rounded to 53 bits, ties to even, and is then put together with its exponent.  There is a double for it
unless that exponent is too large.  That is so from `2 ^ 1024` on, and already from where rounding leads there: half way
between the largest double and `2 ^ 1024` (`ofNat?_eq_none_iff`).
-/
namespace Offside.Number

open Float.Model UnpackedFloat

/-! ## Bits -/

theorem log2_shiftRight (m : Nat) : ∀ k, (m >>> k).log2 = m.log2 - k
  | 0 => rfl
  | k + 1 => by
    have ih := log2_shiftRight m k
    rw [Nat.log2_def] at ih
    rw [Nat.shiftRight_succ]
    split at ih
    · omega
    · rename_i hsmall
      have hzero : (m >>> k) / 2 = 0 := Nat.div_eq_of_lt (Nat.lt_of_not_le hsmall)
      rw [hzero, Nat.log2_zero]
      omega

theorem log2_shiftLeft {m : Nat} (hm : m ≠ 0) : ∀ k, (m <<< k).log2 = m.log2 + k
  | 0 => rfl
  | k + 1 => by
    have hne : m <<< k ≠ 0 := by simp [hm]
    rw [Nat.shiftLeft_succ, Nat.log2_two_mul hne, log2_shiftLeft hm k]
    omega

theorem lt_iff_log2_le {m : Nat} : m < 1 <<< 53 ↔ m.log2 ≤ 52 := by
  by_cases hm : m = 0
  · subst hm
    decide
  · have hlog : m.log2 < 53 ↔ m < 1 <<< 53 := Nat.log2_lt hm
    exact hlog.symm.trans Nat.lt_succ_iff

/-- So many bits are left of a number. -/
theorem le_shiftRight_iff {n : Nat} (hn : n ≠ 0) (k bits : Nat) : 1 <<< bits ≤ n >>> k ↔ bits + k ≤ n.log2 := by
  rw [Nat.one_shiftLeft, Nat.shiftRight_eq_div_pow, Nat.le_div_iff_mul_le (Nat.two_pow_pos k), ← Nat.pow_add,
    Nat.le_log2 hn]

/-! ## Packing -/

/-- A number of at most 53 bits, the last of which has at most the exponent `top`. -/
def Bounded (top : Int) : UnpackedFloat → Prop
  | .zero _ => True
  | .finite _ m e _ => m < 1 <<< 53 ∧ e ≤ top
  | _ => False

theorem Bounded.isInf {top : Int} {x : UnpackedFloat} (h : Bounded top x) : x.isInf = false := by
  cases x with
  | zero => rfl
  | finite => rfl
  | infinity => exact h.elim
  | notANumber => exact h.elim

theorem Bounded.mono {low top : Int} {x : UnpackedFloat} (h : Bounded low x) (hle : low ≤ top) : Bounded top x := by
  cases x with
  | zero => trivial
  | finite => exact ⟨h.1, Int.le_trans h.2 hle⟩
  | infinity => exact h.elim
  | notANumber => exact h.elim

theorem bounded_packComponents {s : Sign} {ev : BitVec 11} {mv : BitVec 52} (h : ev ≠ -1#11) {top : Int}
    (htop : ev ≠ 0#11 → (ev.toNat : Int) - 1075 ≤ top) (hleast : -1074 ≤ top) :
    Bounded top (UnpackedFloat.unpack Format.binary64 (packComponents Format.binary64 s ev mv)) := by
  have hbias : ((Format.binary64.exponentBias : Nat) : Int) = 1023 := rfl
  unfold UnpackedFloat.unpack
  simp only [unpackMantissa_packComponents, unpackExponent_packComponents, if_neg h, hbias]
  split
  · rename_i hzero
    split
    · trivial
    · refine ⟨Nat.lt_trans mv.isLt (by decide), ?_⟩
      rw [hzero]
      exact hleast
  · rename_i hne
    exact ⟨(1#1 ++ mv).isLt, htop hne⟩

section

variable {s : Sign} {m : Nat} {e : Int} (hm : 0 < m)

theorem isInf_pack (he : 972 ≤ e) : (Float.Model.pack (.finite s m e hm)).isInf = true := by
  unfold Float.Model.isInf Float.Model.unpack Float.Model.pack UnpackedFloat.pack
  rw [if_pos ?_]
  · unfold packedInfinity UnpackedFloat.unpack
    simp only [unpackMantissa_packComponents, unpackExponent_packComponents]
    rfl
  · change 2048 ≤ (e + 1023 + 52).toNat + 1
    omega

theorem bounded_pack (he : e < 972) : Bounded (max e (-1074)) (Float.Model.pack (.finite s m e hm)).unpack := by
  unfold Float.Model.unpack Float.Model.pack UnpackedFloat.pack
  rw [if_neg ?_]
  · split
    · have hev : (BitVec.ofNat 11 (e + 1023 + 52).toNat).toNat = (e + 1075).toNat := by
        rw [BitVec.toNat_ofNat]
        omega
      refine @bounded_packComponents s (BitVec.ofNat 11 (e + 1023 + 52).toNat) _ ?_ _ ?_ (by omega)
      · intro h
        rw [h] at hev
        simp at hev
        omega
      · intro hne
        have hpos : (e + 1075).toNat ≠ 0 := by
          intro h
          rw [h] at hev
          exact hne (BitVec.eq_of_toNat_eq hev)
        rw [hev]
        omega
    · exact bounded_packComponents (by decide) (fun h => absurd rfl h) (by omega)
  · change ¬2048 ≤ (e + 1023 + 52).toNat + 1
    omega

theorem isInf_pack_iff : (Float.Model.pack (.finite s m e hm)).isInf = true ↔ 972 ≤ e := by
  refine ⟨fun h => Int.not_lt.1 fun he => ?_, isInf_pack hm⟩
  rw [Float.Model.isInf, (bounded_pack hm he).isInf] at h
  cases h

end

/-! ## Rounding -/

theorem mantissa_shiftRight (em : ExtendedMantissa) : ∀ k : Nat, (em >>> k).mantissa = em.mantissa >>> k
  | 0 => rfl
  | k + 1 => congrArg (· / 2) (mantissa_shiftRight em k)

theorem roundBit_shiftRight (em : ExtendedMantissa) (k : Nat) :
    (em >>> (k + 1)).roundBit = (em.mantissa >>> k % 2 != 0) :=
  congrArg (· % 2 != 0) (mantissa_shiftRight em k)

theorem roundedMantissa_cases (em : ExtendedMantissa) :
    em.roundedMantissa = em.mantissa ∧ (em.roundBit = false ∨ em.mantissa % 2 = 0) ∨
      em.roundedMantissa = em.mantissa + 1 ∧ em.roundBit = true := by
  obtain ⟨m, _ | _, _ | _⟩ := em <;>
    simp [ExtendedMantissa.roundedMantissa, ExtendedMantissa.accuracy, Accuracy.roundToNearestEven]
  omega

/-- The exponent of the last bit that a number is rounded to. -/
def lastPlace (m : Nat) (e : Int) : Int := max e (max (m.log2 + 1 + e - 53) (-1074))

/-- The mantissa at the last place, with what is cut off. -/
def cut (m : Nat) (e : Int) : ExtendedMantissa :=
  ExtendedMantissa.ofMantissaAndAccuracy m .exact >>> (lastPlace m e - e).toNat

theorem neg_le_lastPlace (m : Nat) (e : Int) : -1074 ≤ lastPlace m e := by
  rw [lastPlace]
  omega

theorem mantissa_cut (m : Nat) (e : Int) : (cut m e).mantissa = m >>> (lastPlace m e - e).toNat :=
  mantissa_shiftRight _ _

theorem targetExponent_eq (m : Nat) (e : Int) :
    Format.binary64.targetExponent (totalExponent m e) = max (m.log2 + 1 + e - 53) (-1074) := rfl

theorem shiftToTargetExponent_eq (m : Nat) (e : Int) :
    shiftToTargetExponent Format.binary64 m e .exact = (cut m e, lastPlace m e) := by
  have hamount : (lastPlace m e - e).toNat = (Format.binary64.targetExponent (totalExponent m e) - e).toNat := by
    rw [targetExponent_eq, lastPlace]
    omega
  have hexponent : e + ((Format.binary64.targetExponent (totalExponent m e) - e).toNat : Int) = lastPlace m e := by
    rw [targetExponent_eq, lastPlace]
    omega
  unfold shiftToTargetExponent shiftToExponent cut
  simp only
  rw [hexponent, hamount]

theorem roundedMantissa_cut_le (m : Nat) (e : Int) : (cut m e).roundedMantissa ≤ 1 <<< 53 := by
  have hlt : (cut m e).mantissa < 1 <<< 53 := by
    rw [lt_iff_log2_le, mantissa_cut, log2_shiftRight, lastPlace]
    omega
  rcases roundedMantissa_cases (cut m e) with ⟨h, -⟩ | ⟨h, -⟩ <;> rw [h]
  · exact Nat.le_of_lt hlt
  · exact hlt

theorem lastPlace_of_lt {m : Nat} (hm : m < 1 <<< 53) {e : Int} (he : -1074 ≤ e) : lastPlace m e = e := by
  have := lt_iff_log2_le.1 hm
  rw [lastPlace]
  omega

theorem lastPlace_carry {e : Int} (he : -1074 ≤ e) : lastPlace (1 <<< 53) e = e + 1 := by
  have : (1 <<< 53 : Nat).log2 = 53 := by decide
  rw [lastPlace, this]
  omega

/-- **What a number is rounded to.**  A mantissa that rounding gave one bit too many is shifted once more. -/
inductive Rounds (s : Sign) (m : Nat) (e : Int) : UnpackedFloat → Prop
  | zero (h : (cut m e).roundedMantissa = 0) : Rounds s m e (.zero s)
  | finite {r : Nat} {place : Int} (hr : 0 < r) (hplace : place = lastPlace m e) (h : (cut m e).roundedMantissa = r)
    (hlt : r < 1 <<< 53) : Rounds s m e (.finite s r place hr)
  | carry {r : Nat} {place : Int} (hr : 0 < r) (hplace : place = lastPlace m e + 1)
    (h : (cut m e).roundedMantissa = 1 <<< 53) : Rounds s m e (.finite s r place hr)

theorem rounds (s : Sign) (m : Nat) (e : Int) : Rounds s m e (roundWithAccuracy Format.binary64 s m e .exact) := by
  have hleast := neg_le_lastPlace m e
  unfold roundWithAccuracy
  rw [shiftToTargetExponent_eq]
  dsimp only
  rw [shiftToTargetExponent_eq]
  have hmantissa := mantissa_cut (cut m e).roundedMantissa (lastPlace m e)
  by_cases hcarry : (cut m e).roundedMantissa = 1 <<< 53
  · have hplace : lastPlace (cut m e).roundedMantissa (lastPlace m e) = lastPlace m e + 1 := by
      rw [hcarry, lastPlace_carry hleast]
    have hne : (cut (cut m e).roundedMantissa (lastPlace m e)).mantissa ≠ 0 := by
      have hone : (lastPlace m e + 1 - lastPlace m e).toNat = 1 := by omega
      rw [hmantissa, hplace, hone, hcarry]
      decide
    rw [dif_neg hne]
    exact .carry _ hplace hcarry
  · have hlt := Nat.lt_of_le_of_ne (roundedMantissa_cut_le m e) hcarry
    have hplace : lastPlace (cut m e).roundedMantissa (lastPlace m e) = lastPlace m e := lastPlace_of_lt hlt hleast
    rw [hplace, Int.sub_self, Int.toNat_zero, Nat.shiftRight_zero] at hmantissa
    split
    · rename_i hzero
      exact .zero (hmantissa.symm.trans hzero)
    · exact .finite _ hplace hmantissa.symm (Nat.lt_of_le_of_lt (Nat.le_of_eq hmantissa) hlt)

/-- **Which numbers have no double**: those that are too large at once, and those that rounding makes so. -/
theorem isInf_round (s : Sign) (m : Nat) (e : Int) :
    (Float.Model.pack (roundWithAccuracy Format.binary64 s m e .exact)).isInf = true ↔
      972 ≤ lastPlace m e ∧ (cut m e).roundedMantissa ≠ 0 ∨
        lastPlace m e = 971 ∧ (cut m e).roundedMantissa = 1 <<< 53 := by
  have hrounds := rounds s m e
  generalize roundWithAccuracy Format.binary64 s m e .exact = x at hrounds ⊢
  cases hrounds with
  | zero h => cases s <;> simp [h] <;> decide
  | finite hr hplace h hlt =>
    rw [isInf_pack_iff, h]
    omega
  | carry hr hplace h =>
    rw [isInf_pack_iff, h]
    omega

theorem bounded_round {s : Sign} {m : Nat} {e : Int} (h : lastPlace m e < 971) :
    Bounded (lastPlace m e + 1) (Float.Model.pack (roundWithAccuracy Format.binary64 s m e .exact)).unpack := by
  have hleast := neg_le_lastPlace m e
  have hrounds := rounds s m e
  generalize roundWithAccuracy Format.binary64 s m e .exact = x at hrounds ⊢
  cases hrounds with
  | zero => cases s <;> exact trivial
  | finite hr => exact (bounded_pack hr (by omega)).mono (by omega)
  | carry hr => exact (bounded_pack hr (by omega)).mono (by omega)

/-! ## Large numbers -/

/-- Half way between the largest double and `2 ^ 1024`, which would be the next one. -/
def doubleLimit : Nat := 18014398509481983 <<< 970

theorem doubleLimit_le (n : Nat) : doubleLimit ≤ n ↔ 18014398509481983 ≤ n >>> 970 := by
  rw [doubleLimit, Nat.shiftLeft_eq, Nat.shiftRight_eq_div_pow, Nat.le_div_iff_mul_le (Nat.two_pow_pos 970)]

theorem ofScientific_zero {n : Nat} (hn : n ≠ 0) : UnpackedFloat.ofScientific Format.binary64 n (Int.ofNat 0) =
    roundWithAccuracy Format.binary64 .positive (n <<< 53) (-53) .exact := by
  have hbits : Format.binary64.mantissaBits = 53 := rfl
  unfold UnpackedFloat.ofScientific
  rw [dif_neg hn, if_neg ?_, if_neg ?_, if_pos ?_]
  · simp only [UnpackedFloat.mul, hbits, Int.ofNat_eq_natCast, Int.toNat_natCast, Nat.pow_zero, Nat.mul_one]
    rfl
  · exact Int.le_refl 0
  · change ¬((0 : Int) < -(2048 + (n.log2 : Int)))
    omega
  · decide

section

variable {n : Nat}

theorem ofScientific_of_ge (hn : 1 <<< 53 ≤ n) : (Float.ofScientific n false 0).toModel =
    Float.Model.pack (roundWithAccuracy Format.binary64 .positive (n <<< 53) (-53) .exact) := by
  have hne : n ≠ 0 := Nat.ne_of_gt (Nat.lt_of_lt_of_le (by decide) hn)
  unfold Float.ofScientific
  split
  · rename_i h
    exact absurd h.1 (Nat.not_lt.2 hn)
  · exact congrArg Float.Model.pack (ofScientific_zero hne)

theorem roundedMantissa_cut_ne_zero (hn : n ≠ 0) (hplace : lastPlace (n <<< 53) (-53) = n.log2 - 52) :
    (cut (n <<< 53) (-53)).roundedMantissa ≠ 0 := by
  have hmantissa : (cut (n <<< 53) (-53)).mantissa.log2 = 52 := by
    rw [mantissa_cut, log2_shiftRight, log2_shiftLeft hn, hplace]
    omega
  intro hzero
  rcases roundedMantissa_cases (cut (n <<< 53) (-53)) with ⟨h, -⟩ | ⟨h, -⟩
  · rw [← h, hzero] at hmantissa
    cases hmantissa
  · omega

/-- Right below `2 ^ 1024` rounding carries if all 54 bits are set: a tie goes up, because the last bit kept is odd. -/
theorem carry_iff (hplace : lastPlace (n <<< 53) (-53) = 971) (hlt : n >>> 970 < 1 <<< 54) :
    (cut (n <<< 53) (-53)).roundedMantissa = 1 <<< 53 ↔ 18014398509481983 ≤ n >>> 970 := by
  have hshift : (n <<< 53) >>> 1023 = n >>> 970 := by
    rw [show 1023 = 53 + 970 from rfl, Nat.shiftRight_add, Nat.shiftLeft_shiftRight]
  have hmantissa : (cut (n <<< 53) (-53)).mantissa = n >>> 970 / 2 := by
    rw [cut, hplace, ← hshift]
    exact mantissa_shiftRight _ 1024
  have hbit : (cut (n <<< 53) (-53)).roundBit = (n >>> 970 % 2 != 0) := by
    rw [cut, hplace, ← hshift]
    exact roundBit_shiftRight _ 1023
  -- the bits are a number of their own from here on
  generalize n >>> 970 = bits at hlt hmantissa hbit ⊢
  rcases roundedMantissa_cases (cut (n <<< 53) (-53)) with ⟨hr, hdown⟩ | ⟨hr, hup⟩
  · rw [hbit, bne_eq_false_iff_eq] at hdown
    omega
  · rw [hbit, bne_iff_ne] at hup
    omega

theorem isInf_ofScientific_of_ge (hn : 1 <<< 53 ≤ n) :
    (Float.ofScientific n false 0).isInf = true ↔ doubleLimit ≤ n := by
  have hne : n ≠ 0 := Nat.ne_of_gt (Nat.lt_of_lt_of_le (by decide) hn)
  have hlog : 53 ≤ n.log2 := (Nat.le_log2 hne).2 hn
  have hplace : lastPlace (n <<< 53) (-53) = n.log2 - 52 := by
    rw [lastPlace, log2_shiftLeft hne]
    omega
  have hhuge := le_shiftRight_iff hne 970 54
  have hlarge := le_shiftRight_iff hne 970 53
  rw [Float.isInf, ofScientific_of_ge hn, isInf_round, doubleLimit_le]
  by_cases h : 1024 ≤ n.log2
  · have hbits := hhuge.2 h
    refine iff_of_true (Or.inl ⟨by omega, roundedMantissa_cut_ne_zero hne hplace⟩) ?_
    exact Nat.le_trans (by decide) hbits
  · have hlt : n >>> 970 < 1 <<< 54 := Nat.not_le.1 fun hbits => h (hhuge.1 hbits)
    constructor
    · rintro (⟨hplace', -⟩ | ⟨hplace', hcarry⟩)
      · omega
      · exact (carry_iff hplace' hlt).1 hcarry
    · intro hbits
      have hle : 1023 ≤ n.log2 := hlarge.1 (Nat.le_trans (by decide) hbits)
      have hplace' : lastPlace (n <<< 53) (-53) = 971 := by omega
      exact Or.inr ⟨hplace', (carry_iff hplace' hlt).2 hbits⟩

/-! ## Small numbers

A number of up to 53 bits is made a double as it is, and multiplied by one. -/

theorem bounded_toFloat (hn : n < 1 <<< 53) : Bounded 1 n.toUInt64.toFloat.toModel.unpack := by
  have htoNat : n.toUInt64.toNat = n := UInt64.toNat_ofNat_of_lt (Nat.lt_trans hn (by decide))
  have hmodel : n.toUInt64.toFloat.toModel =
      Float.Model.pack (UnpackedFloat.normalize Format.binary64 n 0 .positive) := by
    rw [← congrArg (Nat.cast (R := Int)) htoNat]
    rfl
  rw [hmodel, UnpackedFloat.normalize]
  split
  · rename_i h
    rw [Int.compare_eq_lt] at h
    omega
  · trivial
  · rename_i h
    rw [Int.compare_eq_gt] at h
    have hne : n ≠ 0 := by omega
    have hlog := lt_iff_log2_le.1 hn
    unfold UnpackedFloat.round decreaseExponent
    simp only [Int.toNat_natCast, targetExponent_eq]
    generalize hk : (0 - max ((n.log2 : Int) + 1 + 0 - 53) (-1074)).toNat = k
    have hplace : lastPlace (n <<< k) (0 - k) ≤ 0 := by
      rw [lastPlace, log2_shiftLeft hne]
      omega
    exact (bounded_round (by omega)).mono (by omega)

theorem isInf_mul_one {x : Float} (h : Bounded 1 x.toModel.unpack)
    (hsize : 0 < Float.exactlyRepresentablePowersOfTen.size) :
    (x * Float.exactlyRepresentablePowersOfTen[0]).isInf = false := by
  have hone : (Float.ofBits 0x3FF0000000000000).toModel.unpack =
    UnpackedFloat.finite .positive (1 <<< 52) (-52) (by decide) := rfl
  have hmul : (x * Float.exactlyRepresentablePowersOfTen[0]).toModel = Float.Model.pack
    (UnpackedFloat.mul Format.binary64 x.toModel.unpack (Float.ofBits 0x3FF0000000000000).toModel.unpack) := rfl
  rw [Float.isInf, hmul, hone]
  cases hx : x.toModel.unpack with
  | zero s => cases s <;> rfl
  | finite s m e hm =>
    rw [hx] at h
    have hlog : (m * 1 <<< 52).log2 = m.log2 + 52 := by
      rw [← log2_shiftLeft (Nat.ne_of_gt hm), Nat.shiftLeft_eq m]
      rfl
    have hplace : lastPlace (m * 1 <<< 52) (e + -52) < 971 := by
      have := lt_iff_log2_le.1 h.1
      have := h.2
      rw [lastPlace, hlog]
      omega
    exact (bounded_round hplace).isInf
  | infinity =>
    rw [hx] at h
    exact h.elim
  | notANumber =>
    rw [hx] at h
    exact h.elim

theorem isInf_ofScientific_of_lt (hn : n < 1 <<< 53) : (Float.ofScientific n false 0).isInf = false := by
  unfold Float.ofScientific
  split
  · exact isInf_mul_one (bounded_toFloat hn) (by decide)
  · rename_i h
    exact absurd ⟨hn, by decide⟩ h

end

/-- **The whole numbers without a double are those from the limit on.** -/
theorem ofNat?_eq_none_iff (n : Nat) : ofNat? n = none ↔ doubleLimit ≤ n := by
  by_cases hn : n < 1 <<< 53
  · have hlt : n < doubleLimit := Nat.lt_trans hn (by decide)
    simp [ofNat?, isInf_ofScientific_of_lt hn, hlt]
  · rw [← isInf_ofScientific_of_ge (Nat.not_lt.1 hn)]
    simp [ofNat?]

end Offside.Number
