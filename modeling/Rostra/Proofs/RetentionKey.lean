/-
# The arithmetic of retention keys

The score of a payload is integer arithmetic throughout: a logarithm by 32 squarings, two weighted terms
and a shifted time, encoded into 48 bytes whose order is the order of eviction.

* Section 1: the bits of the logarithm are those of a recursion (`fractionOf`) that is monotone, because
  squaring and truncating are.  So `ln` is monotone, and below its bounds.
* Section 2: the terms of a key fit their types, and the subtractions are not cut off: every checked
  operation succeeds (`keyTicksChecked_eq`).
* Section 3: what a key does when one of its inputs changes.
* Section 4: the encoding.
* Section 5: the result.

Rounding is not avoided but made harmless: a logarithm that is truncated at 32 bits is still monotone, and monotone
in each input is all that the order of eviction asks of a score. How close the fixed-point logarithm is to the real
one is not shown.
-/
import Mathlib.Data.Nat.Log
import Rostra.Core.Simulation

namespace Rostra

open RetentionPolicy

open Dm (checkedSub fits)

/-! ## 1. The logarithm

The loop of the source squares a mantissa and sets a bit whenever the square overflows. The recursion says the same
from the other end, and can be compared bit by bit. -/

/-- The bits that `k` squarings of a mantissa shift out, from the leading one on. -/
def fractionOf : ℕ → ℕ → ℕ
  | 0, _ => 0
  | k + 1, m =>
    if 2 ^ 64 ≤ (m * m) >>> 63 then 2 ^ k + fractionOf k (((m * m) >>> 63) >>> 1)
    else fractionOf k ((m * m) >>> 63)

theorem fractionOf_lt (k m : ℕ) : fractionOf k m < 2 ^ k := by
  induction k generalizing m with
  | zero => exact Nat.one_pos
  | succ k ih =>
    have hdouble : 2 ^ (k + 1) = 2 ^ k + 2 ^ k := by rw [Nat.pow_succ, Nat.mul_two]
    rw [fractionOf, hdouble]
    split
    · exact Nat.add_lt_add_left (ih _) _
    · exact (ih _).trans_le (Nat.le_add_right _ _)

theorem shiftRight_mono {a b : ℕ} (h : a ≤ b) (k : ℕ) : a >>> k ≤ b >>> k := by
  rw [Nat.shiftRight_eq_div_pow, Nat.shiftRight_eq_div_pow]
  exact Nat.div_le_div_right h

/-- **A larger mantissa has a larger fraction.**  The first bit in which they differ decides, and up to it both
mantissas are squared alike. -/
theorem fractionOf_mono (k : ℕ) {m m' : ℕ} (h : m ≤ m') : fractionOf k m ≤ fractionOf k m' := by
  induction k generalizing m m' with
  | zero => exact le_rfl
  | succ k ih =>
    have hsquared : (m * m) >>> 63 ≤ (m' * m') >>> 63 := shiftRight_mono (Nat.mul_le_mul h h) 63
    rw [fractionOf, fractionOf]
    split
    · next hbit =>
      rw [if_pos (hbit.trans hsquared)]
      exact Nat.add_le_add_left (ih (shiftRight_mono hsquared 1)) _
    · split
      · exact (fractionOf_lt k _).le.trans (Nat.le_add_right _ _)
      · exact ih hsquared

/-- The loop of the source sets these bits, one after the other. -/
theorem lnFold_eq (k m acc : ℕ) :
    ((List.range k).reverse.foldl lnStep (m, 2 ^ k * acc)).2 = 2 ^ k * acc + fractionOf k m := by
  induction k generalizing m acc with
  | zero => rfl
  | succ k ih =>
    have hdouble : 2 ^ (k + 1) * acc = 2 ^ k * (2 * acc) := by rw [Nat.pow_succ, Nat.mul_assoc]
    rw [List.range_succ, List.reverse_append, List.reverse_singleton, List.singleton_append, List.foldl_cons,
      lnStep, fractionOf]
    dsimp only
    split
    · have hset : 2 ^ (k + 1) * acc ||| 2 ^ k = 2 ^ k * (2 * acc + 1) := by
        rw [← Nat.two_pow_add_eq_or_of_lt (Nat.pow_lt_pow_right (by decide) k.lt_succ_self), hdouble,
          Nat.mul_add, Nat.mul_one]
      rw [hset, ih, hdouble, Nat.mul_add, Nat.mul_one, Nat.add_assoc]
    · rw [hdouble, ih]

/-- The mantissa of a number: its leading bit is the bit 63, so that every squaring starts from the same range. -/
def mantissa (value : ℕ) : ℕ := value <<< (63 - Nat.log2 value)

theorem ln_eq (value : ℕ) :
    ln value = ((2 ^ 32 * Nat.log2 value + fractionOf 32 (mantissa value)) * LN_2) >>> 32 := by
  have hfold := lnFold_eq 32 (mantissa value) 0
  rw [Nat.mul_zero, Nat.zero_add] at hfold
  unfold ln
  dsimp only
  rw [show value <<< (63 - Nat.log2 value) = mantissa value from rfl, hfold, Nat.shiftLeft_eq, Nat.mul_comm _ (2 ^ 32),
    ← Nat.two_pow_add_eq_or_of_lt (fractionOf_lt 32 _)]

/-- **The logarithm is monotone.** It is computed bit by bit and truncated, so this is not a matter of course. -/
theorem ln_mono {a b : ℕ} (hle : a ≤ b) : ln a ≤ ln b := by
  rw [ln_eq, ln_eq]
  refine shiftRight_mono (Nat.mul_le_mul_right _ ?_) 32
  have ha := fractionOf_lt 32 (mantissa a)
  have hexponent : Nat.log2 a ≤ Nat.log2 b := by
    rw [Nat.log2_eq_log_two, Nat.log2_eq_log_two]
    exact Nat.log_mono_right hle
  rcases hexponent.lt_or_eq with hlt | heq
  · omega
  · have hmantissa : mantissa a ≤ mantissa b := by
      unfold mantissa
      rw [heq, Nat.shiftLeft_eq, Nat.shiftLeft_eq]
      exact Nat.mul_le_mul_right _ hle
    have hfraction := fractionOf_mono 32 hmantissa
    omega

example : ln 2 = 2977044471 ∧ ln 3 = 4718503848 ∧ ln 1000 = 29668583003 := by decide +kernel

theorem log2_lt {value : ℕ} (h : value < 2 ^ 64) : Nat.log2 value < 64 := by
  rcases Nat.eq_zero_or_pos value with rfl | hpos
  · decide
  · exact (Nat.log2_lt hpos.ne').mpr h

/-- The logarithm to the base two has 38 bits. -/
theorem log2Fixed_lt {value : ℕ} (h : value < 2 ^ 64) :
    2 ^ 32 * Nat.log2 value + fractionOf 32 (mantissa value) < 2 ^ 38 := by
  have hexponent := log2_lt h
  have hfraction := fractionOf_lt 32 (mantissa value)
  omega

/-- **It does not exceed the logarithm of 2^64**, so the distance bonus is not negative. -/
theorem ln_le {value : ℕ} (h : value < 2 ^ 64) : ln value ≤ 64 * LN_2 := by
  have hlog := log2Fixed_lt h
  rw [ln_eq, Nat.shiftRight_eq_div_pow]
  refine Nat.div_le_of_le_mul ?_
  calc _ ≤ 2 ^ 38 * LN_2 := Nat.mul_le_mul_right _ hlog.le
    _ = 2 ^ 32 * (64 * LN_2) := by decide

/-- A logarithm of a 64-bit number has 38 bits. -/
theorem ln_lt {value : ℕ} (h : value < 2 ^ 64) : ln value < 2 ^ 38 :=
  (ln_le h).trans_lt (by decide)

/-! ## 2. What fits

The checked version of each function is defined next to it, with the types of the source; that both agree is shown
from the inside outwards. -/

/-- The parameters are 32-bit numbers. -/
structure RetentionPolicy.Fits (p : RetentionPolicy) : Prop where
  sizeFloor : p.sizeFloor < 2 ^ 32
  tauSeconds : p.tauSeconds < 2 ^ 32
  alphaQ16 : p.alphaQ16 < 2 ^ 32
  betaQ16 : p.betaQ16 < 2 ^ 32
  maxBonus : p.maxBonus < 2 ^ 32

/-- This is what the constructor sees to. -/
theorem RetentionPolicy.new_fits {sizeFloor tauSeconds alphaQ16 betaQ16 maxBonus graceSeconds : UInt32}
    {p : RetentionPolicy}
    (h : RetentionPolicy.new sizeFloor tauSeconds alphaQ16 betaQ16 maxBonus graceSeconds = some p) :
    p.Fits := by
  unfold RetentionPolicy.new at h
  split at h
  · cases h
    exact ⟨sizeFloor.toNat_lt, tauSeconds.toNat_lt, alphaQ16.toNat_lt, betaQ16.toNat_lt, maxBonus.toNat_lt⟩
  · cases h

theorem fits_eq {bits n : ℕ} (h : n < 2 ^ bits) : fits bits n = some n := if_pos h

theorem checkedSub_eq {a b : ℕ} (h : b ≤ a) : checkedSub a b = some (a - b) := if_pos h

theorem fitsI128_eq {x : ℤ} (h₁ : -2 ^ 127 ≤ x) (h₂ : x < 2 ^ 127) : fitsI128 x = some x := if_pos ⟨h₁, h₂⟩

/-- One squaring keeps the mantissa within 64 bits. -/
theorem lnStep_bounded {acc : ℕ × ℕ} {bit : ℕ} (h : acc.1 < 2 ^ 64) : (lnStep acc bit).1 < 2 ^ 64 := by
  have hproduct : acc.1 * acc.1 < 2 ^ 64 * 2 ^ 64 := Nat.mul_self_lt_mul_self h
  have hsquared : (acc.1 * acc.1) >>> 63 < 2 ^ 65 := by
    rw [Nat.shiftRight_eq_div_pow]
    omega
  unfold lnStep
  dsimp only
  generalize (acc.1 * acc.1) >>> 63 = squared at hsquared ⊢
  split
  · rw [Nat.shiftRight_eq_div_pow]
    dsimp only
    omega
  · next hlow => exact not_le.mp hlow

theorem lnStepChecked_eq {acc : ℕ × ℕ} {bit : ℕ} (h : acc.1 < 2 ^ 64) (hbit : bit < 64) :
    lnStepChecked acc bit = some (lnStep acc bit) := by
  have hproduct : acc.1 * acc.1 < 2 ^ 128 := by
    have hsquare : acc.1 * acc.1 < 2 ^ 64 * 2 ^ 64 := Nat.mul_self_lt_mul_self h
    omega
  have hflag : 2 ^ bit < 2 ^ 64 := Nat.pow_lt_pow_right (by decide) hbit
  unfold lnStepChecked lnStep
  rw [fits_eq hproduct, fits_eq hflag]
  dsimp only [Option.bind_eq_bind, Option.bind_some]
  split
  · rfl
  · rfl

theorem lnFoldChecked_eq (bits : List ℕ) (hbits : ∀ bit ∈ bits, bit < 64) {acc : ℕ × ℕ}
    (h : acc.1 < 2 ^ 64) : bits.foldlM lnStepChecked acc = some (bits.foldl lnStep acc) := by
  induction bits generalizing acc with
  | nil => rfl
  | cons bit bits ih =>
    rw [List.foldlM_cons, lnStepChecked_eq h (hbits bit List.mem_cons_self)]
    exact ih (fun b hb => hbits b (List.mem_cons_of_mem _ hb)) (lnStep_bounded h)

theorem mantissa_lt {value : ℕ} (h : value < 2 ^ 64) : mantissa value < 2 ^ 64 := by
  have hexponent := log2_lt h
  have hvalue : value < 2 ^ (Nat.log2 value + 1) := Nat.lt_log2_self
  have hsplit : 2 ^ (Nat.log2 value + 1) * 2 ^ (63 - Nat.log2 value) = 2 ^ 64 := by
    rw [← Nat.pow_add]
    congr 1
    omega
  unfold mantissa
  rw [Nat.shiftLeft_eq, ← hsplit]
  exact Nat.mul_lt_mul_of_pos_right hvalue (Nat.two_pow_pos _)

/-- **No operation of the logarithm overflows.** The checked variant computes the same number, for every positive
number of 64 bits. -/
theorem lnChecked_eq {value : ℕ} (hpos : 0 < value) (h : value < 2 ^ 64) : lnChecked value = some (ln value) := by
  have hexponent := log2_lt h
  have hmantissa := mantissa_lt h
  have hleading : 63 - leadingZeros value = Nat.log2 value := by
    rw [leadingZeros, if_neg hpos.ne']
    omega
  have hzeros : leadingZeros value ≤ 63 := by
    rw [leadingZeros, if_neg hpos.ne']
    omega
  have hwhole : Nat.log2 value <<< 32 < 2 ^ 64 := by
    rw [Nat.shiftLeft_eq]
    omega
  have hfraction := lnFold_eq 32 (mantissa value) 0
  rw [Nat.mul_zero, Nat.zero_add] at hfraction
  have hlog : (Nat.log2 value <<< 32 ||| fractionOf 32 (mantissa value)) =
      2 ^ 32 * Nat.log2 value + fractionOf 32 (mantissa value) := by
    rw [Nat.shiftLeft_eq, Nat.mul_comm, Nat.two_pow_add_eq_or_of_lt (fractionOf_lt 32 _)]
  have hproduct : (Nat.log2 value <<< 32 ||| fractionOf 32 (mantissa value)) * LN_2 < 2 ^ 128 := by
    rw [hlog]
    calc _ ≤ 2 ^ 38 * LN_2 := Nat.mul_le_mul_right _ (log2Fixed_lt h).le
      _ < 2 ^ 128 := by decide
  have hresult : ((Nat.log2 value <<< 32 ||| fractionOf 32 (mantissa value)) * LN_2) >>> 32 = ln value := by
    rw [hlog, ← ln_eq]
  have hfits : ln value < 2 ^ 64 := (ln_lt h).trans (by decide)
  have hfold := @lnFoldChecked_eq (List.range 32).reverse
    (fun bit hbit => (List.mem_range.mp (List.mem_reverse.mp hbit)).trans (by decide))
    (mantissa value, 0) hmantissa
  rw [lnChecked, if_neg hpos.ne', checkedSub_eq hzeros, hleading]
  simp only [Option.bind_eq_bind, Option.bind_some, checkedSub_eq (Nat.le_of_lt_succ hexponent)]
  rw [show value <<< (63 - Nat.log2 value) = mantissa value from rfl, fits_eq (hmantissa.trans (by decide)),
    Option.bind_some, hfold, Option.bind_some, fits_eq hwhole, Option.bind_some, hfraction, fits_eq hproduct,
    Option.bind_some, hresult, fits_eq hfits]

/-- The logarithm of how much longer a payload is than the floor. Payloads below the floor count as the floor. -/
def sizeTerm (p : RetentionPolicy) (contentLen : ℕ) : ℕ := ln (max contentLen p.sizeFloor) - ln p.sizeFloor

/-- The logarithm of how close the holder is, up to the cap. A distance of zero counts as one. -/
def bonusTerm (p : RetentionPolicy) (distanceQ64 : ℕ) : ℕ :=
  min (64 * LN_2 - ln (max distanceQ64 1)) (ln p.maxBonus)

theorem sizeTerm_lt {p : RetentionPolicy} (hp : p.Fits) {contentLen : ℕ} (hlen : contentLen < 2 ^ 32) :
    sizeTerm p contentLen < 2 ^ 38 := by
  have hfloor := hp.sizeFloor
  have hln : ln (max contentLen p.sizeFloor) < 2 ^ 38 := ln_lt (by omega)
  exact (Nat.sub_le _ _).trans_lt hln

theorem bonusTerm_lt {p : RetentionPolicy} (hp : p.Fits) (distanceQ64 : ℕ) : bonusTerm p distanceQ64 < 2 ^ 38 :=
  (min_le_right _ _).trans_lt (ln_lt (hp.maxBonus.trans (by decide)))

/-- Before the division, a weighted term has 102 bits. -/
theorem product_lt {p : RetentionPolicy} (hp : p.Fits) {log exponent : ℕ} (hlog : log < 2 ^ 38)
    (hexponent : exponent < 2 ^ 32) : log * p.tauSeconds * exponent < 2 ^ 102 := by
  calc log * p.tauSeconds * exponent
      ≤ 2 ^ 38 * 2 ^ 32 * exponent := Nat.mul_le_mul_right _ (Nat.mul_le_mul hlog.le hp.tauSeconds.le)
    _ < 2 ^ 38 * 2 ^ 32 * 2 ^ 32 := Nat.mul_lt_mul_of_pos_left hexponent (by decide)
    _ = 2 ^ 102 := by decide

theorem weight_lt {p : RetentionPolicy} (hp : p.Fits) {log exponent : ℕ} (hlog : log < 2 ^ 38)
    (hexponent : exponent < 2 ^ 32) : p.weight log exponent < 2 ^ 86 := by
  have hproduct := product_lt hp hlog hexponent
  unfold weight
  omega

theorem weightChecked_eq {p : RetentionPolicy} (hp : p.Fits) {log exponent : ℕ} (hlog : log < 2 ^ 38)
    (hexponent : exponent < 2 ^ 32) : p.weightChecked log exponent = some (p.weight log exponent) := by
  have hscaled : log * p.tauSeconds < 2 ^ 127 := by
    calc log * p.tauSeconds ≤ 2 ^ 38 * 2 ^ 32 := Nat.mul_le_mul hlog.le hp.tauSeconds.le
      _ < 2 ^ 127 := by decide
  have hproduct := (product_lt hp hlog hexponent).trans (by decide : 2 ^ 102 < 2 ^ 127)
  rw [weightChecked, fits_eq hscaled, Option.bind_eq_bind, Option.bind_some, fits_eq hproduct]
  rfl

/-- The three terms of a key against the widths that the source documents. -/
structure TermsFit (p : RetentionPolicy) (distanceQ64 contentLen effectiveTimestamp : ℕ) : Prop where
  /-- Neither subtraction of logarithms is cut off. -/
  sizeOrder : ln p.sizeFloor ≤ ln (max contentLen p.sizeFloor)
  bonusOrder : ln (max distanceQ64 1) ≤ 64 * LN_2
  logs : sizeTerm p contentLen < 2 ^ 38 ∧ bonusTerm p distanceQ64 < 2 ^ 38
  products : sizeTerm p contentLen * p.tauSeconds * p.alphaQ16 < 2 ^ 102 ∧
    bonusTerm p distanceQ64 * p.tauSeconds * p.betaQ16 < 2 ^ 102
  weights : p.weight (sizeTerm p contentLen) p.alphaQ16 < 2 ^ 86 ∧
    p.weight (bonusTerm p distanceQ64) p.betaQ16 < 2 ^ 86
  age : effectiveTimestamp <<< 32 < 2 ^ 96

theorem termsFit {p : RetentionPolicy} (hp : p.Fits) {distanceQ64 contentLen effectiveTimestamp : ℕ}
    (hdistance : distanceQ64 < 2 ^ 64) (hlen : contentLen < 2 ^ 32)
    (htime : effectiveTimestamp < 2 ^ 64) : TermsFit p distanceQ64 contentLen effectiveTimestamp := by
  have hsize := sizeTerm_lt hp hlen
  have hbonus := bonusTerm_lt hp distanceQ64
  refine ⟨ln_mono (le_max_right _ _), ln_le (by omega), ⟨hsize, hbonus⟩,
    ⟨product_lt hp hsize hp.alphaQ16, product_lt hp hbonus hp.betaQ16⟩,
    ⟨weight_lt hp hsize hp.alphaQ16, weight_lt hp hbonus hp.betaQ16⟩, ?_⟩
  rw [Nat.shiftLeft_eq]
  omega

theorem keyTicks_eq (p : RetentionPolicy) (distanceQ64 contentLen effectiveTimestamp : ℕ) :
    p.keyTicksAtDistance distanceQ64 contentLen effectiveTimestamp =
      (effectiveTimestamp <<< 32 : ℕ) - (p.weight (sizeTerm p contentLen) p.alphaQ16 : ℤ) +
        (p.weight (bonusTerm p distanceQ64) p.betaQ16 : ℤ) := rfl

/-- **Every key fits its 48 bytes.** The bound adds up the widths of all terms. -/
theorem keyTicks_fits {p : RetentionPolicy} (hp : p.Fits) {distance contentLen : ℕ}
    {effectiveTimestamp : ℕ} (hlen : contentLen < 2 ^ 32)
    (htime : effectiveTimestamp < 2 ^ 64) :
    -2 ^ 127 ≤ p.keyTicksAtDistance distance contentLen effectiveTimestamp ∧
      p.keyTicksAtDistance distance contentLen effectiveTimestamp < 2 ^ 127 := by
  have hsize := weight_lt hp (sizeTerm_lt hp hlen) hp.alphaQ16
  have hbonus := weight_lt hp (bonusTerm_lt hp distance) hp.betaQ16
  have hage : effectiveTimestamp <<< 32 < 2 ^ 96 := by
    rw [Nat.shiftLeft_eq]
    omega
  rw [keyTicks_eq]
  generalize p.weight _ p.alphaQ16 = size at hsize ⊢
  generalize p.weight _ p.betaQ16 = bonus at hbonus ⊢
  generalize effectiveTimestamp <<< 32 = age at hage ⊢
  omega

/-- **No operation of the score overflows**, and no subtraction is cut off. -/
theorem keyTicksChecked_eq {p : RetentionPolicy} (hp : p.Fits) {distanceQ64 contentLen effectiveTimestamp : ℕ}
    (hdistance : distanceQ64 < 2 ^ 64) (hlen : contentLen < 2 ^ 32) (htime : effectiveTimestamp < 2 ^ 64) :
    p.keyTicksChecked distanceQ64 contentLen effectiveTimestamp =
      some (p.keyTicksAtDistance distanceQ64 contentLen effectiveTimestamp) := by
  have h := termsFit hp hdistance hlen htime
  have hfloor := hp.sizeFloor
  have hfloorPos := p.sizeFloorPos
  have hceiling : 64 * LN_2 < 2 ^ 64 := by decide
  have hage := h.age
  have hageFits : effectiveTimestamp <<< 32 < 2 ^ 127 := hage.trans (by decide)
  have hlnSize := @lnChecked_eq (max contentLen p.sizeFloor) (by omega) (by omega)
  have hlnFloor := lnChecked_eq hfloorPos (hfloor.trans (by decide))
  have hlnDistance := @lnChecked_eq (max distanceQ64 1) (by omega) (by omega)
  have hlnCap := lnChecked_eq p.maxBonusPos (hp.maxBonus.trans (by decide))
  have hweightSize : p.weightChecked (ln (max contentLen p.sizeFloor) - ln p.sizeFloor) p.alphaQ16 =
    some (p.weight (sizeTerm p contentLen) p.alphaQ16) := weightChecked_eq hp h.logs.1 hp.alphaQ16
  have hweightBonus : p.weightChecked (min (64 * LN_2 - ln (max distanceQ64 1)) (ln p.maxBonus)) p.betaQ16 =
    some (p.weight (bonusTerm p distanceQ64) p.betaQ16) := weightChecked_eq hp h.logs.2 hp.betaQ16
  have hchecked : p.keyTicksChecked distanceQ64 contentLen effectiveTimestamp =
      (fitsI128 ((effectiveTimestamp <<< 32 : ℕ) - (p.weight (sizeTerm p contentLen) p.alphaQ16 : ℤ))).bind
        fun reduced => fitsI128 (reduced + (p.weight (bonusTerm p distanceQ64) p.betaQ16 : ℤ)) := by
    unfold keyTicksChecked
    rw [Option.bind_eq_bind, hlnSize, Option.bind_some, Option.bind_eq_bind, hlnFloor, Option.bind_some,
      checkedSub_eq h.sizeOrder, Option.bind_some, fits_eq hceiling, Option.bind_some, hlnDistance,
      Option.bind_some, checkedSub_eq h.bonusOrder, Option.bind_some, hlnCap, Option.bind_some,
      fits_eq hageFits, Option.bind_some, hweightSize, Option.bind_some]
    refine congrArg _ (funext fun reduced => ?_)
    rw [hweightBonus, Option.bind_some]
  obtain ⟨hsize, hbonus⟩ := h.weights
  clear * - hchecked hage hsize hbonus
  rw [hchecked, keyTicks_eq]
  generalize p.weight _ p.alphaQ16 = size at hsize ⊢
  generalize p.weight _ p.betaQ16 = bonus at hbonus ⊢
  generalize effectiveTimestamp <<< 32 = age at hage ⊢
  rw [fitsI128_eq (by omega) (by omega), Option.bind_some, fitsI128_eq (by omega) (by omega)]

/-! ## 3. What a key depends on

Three inputs, one at a time, with all others fixed. -/

section Order

variable (p : RetentionPolicy) (event : EventId)

theorem weight_mono {log log' : ℕ} (h : log ≤ log') (exponent : ℕ) :
    p.weight log exponent ≤ p.weight log' exponent :=
  Nat.div_le_div_right (Nat.mul_le_mul_right _ (Nat.mul_le_mul_right _ h))

theorem sizeTerm_mono {contentLen contentLen' : ℕ} (h : contentLen ≤ contentLen') :
    sizeTerm p contentLen ≤ sizeTerm p contentLen' :=
  Nat.sub_le_sub_right (ln_mono (max_le_max_right _ h)) _

theorem bonusTerm_anti {distanceQ64 distanceQ64' : ℕ} (h : distanceQ64 ≤ distanceQ64') :
    bonusTerm p distanceQ64' ≤ bonusTerm p distanceQ64 :=
  min_le_min_right _ (Nat.sub_le_sub_left (ln_mono (max_le_max_right _ h)) _)

/-- Two keys of one event are in the order of their ticks. -/
theorem key_le_key {event : EventId} {ticks ticks' : ℤ} (h : ticks ≤ ticks') :
    (toLex (ticks, event) : RetentionKey) ≤ toLex (ticks', event) := by
  rcases h.lt_or_eq with hlt | rfl
  · exact Prod.Lex.toLex_le_toLex.mpr (.inl hlt)
  · exact le_rfl

/-- **A younger event has a greater key.** -/
theorem keyAtDistance_lt_of_time (distance contentLen : ℕ) {t t' : ℕ} (h : t < t') :
    p.keyAtDistance event distance contentLen t < p.keyAtDistance event distance contentLen t' := by
  refine Prod.Lex.toLex_lt_toLex.mpr (.inl ?_)
  have hage : t <<< 32 < t' <<< 32 := by
    rw [Nat.shiftLeft_eq, Nat.shiftLeft_eq]
    exact Nat.mul_lt_mul_of_pos_right h (by decide)
  rw [keyTicks_eq, keyTicks_eq]
  omega

/-- **A longer payload has no greater key.** -/
theorem keyAtDistance_le_of_len (distance : ℕ) {contentLen contentLen' : ℕ} (h : contentLen ≤ contentLen')
    (t : Timestamp) :
    p.keyAtDistance event distance contentLen' t ≤ p.keyAtDistance event distance contentLen t := by
  have hweight := weight_mono p (sizeTerm_mono p h) p.alphaQ16
  refine key_le_key ?_
  rw [keyTicks_eq, keyTicks_eq]
  omega

/-- **A more distant holder has no greater key.** -/
theorem keyAtDistance_le_of_distance {distance distance' : ℕ} (h : distance ≤ distance') (contentLen : ℕ)
    (t : Timestamp) :
    p.keyAtDistance event distance' contentLen t ≤ p.keyAtDistance event distance contentLen t := by
  have hweight := weight_mono p (bonusTerm_anti p (shiftRight_mono h 192)) p.betaQ16
  refine key_le_key ?_
  rw [keyTicks_eq, keyTicks_eq]
  exact Int.add_le_add_left (Int.ofNat_le.mpr hweight) _

end Order

/-! ## 4. The encoding

The number is signed, and is compared as a string. Flipping the sign bit shifts the range to the nonnegative
numbers, and of these the big-endian digits are in order. -/

/-- 256 bits, in two halves. -/
def EventId.Full (id : EventId) : Prop := (ofLex id).1 < 2 ^ 128 ∧ (ofLex id).2 < 2 ^ 128

/-- The ticks are an `i128`, the id is 256 bits. -/
def RetentionKey.Fits (k : RetentionKey) : Prop :=
  -2 ^ 127 ≤ (ofLex k).1 ∧ (ofLex k).1 < 2 ^ 127 ∧ EventId.Full (ofLex k).2

/-- Digits are compared from the left. -/
theorem mul_add_le_iff {m a b a' b' : ℕ} (hb : b < m) (hb' : b' < m) :
    a * m + b ≤ a' * m + b' ↔ a < a' ∨ a = a' ∧ b ≤ b' := by
  rcases lt_trichotomy a a' with h | rfl | h
  · have : (a + 1) * m ≤ a' * m := Nat.mul_le_mul_right m h
    rw [Nat.add_mul] at this
    omega
  · omega
  · have : (a' + 1) * m ≤ a * m := Nat.mul_le_mul_right m h
    rw [Nat.add_mul] at this
    omega

theorem eventIdNumber_lt {id : EventId} (h : EventId.Full id) : eventIdNumber id < 2 ^ 256 := by
  obtain ⟨h₁, h₂⟩ := h
  unfold eventIdNumber
  omega

theorem eventIdNumber_le_iff {id id' : EventId} (h : EventId.Full id) (h' : EventId.Full id') :
    eventIdNumber id ≤ eventIdNumber id' ↔ id ≤ id' := by
  unfold eventIdNumber
  rw [mul_add_le_iff h.2 h'.2, Prod.Lex.le_iff]

/-- **The byte order of encoded keys is the order of keys.** -/
theorem RetentionKey.toBytes_le_iff {k k' : RetentionKey} (h : k.Fits) (h' : k'.Fits) :
    k.toBytes ≤ k'.toBytes ↔ k ≤ k' := by
  obtain ⟨h₁, h₂, hid⟩ := h
  obtain ⟨h₁', h₂', hid'⟩ := h'
  unfold RetentionKey.toBytes
  have hlex : k ≤ k' ↔ (ofLex k).1 < (ofLex k').1 ∨
      (ofLex k).1 = (ofLex k').1 ∧ (ofLex k).2 ≤ (ofLex k').2 := Prod.Lex.le_iff
  rw [mul_add_le_iff (eventIdNumber_lt hid) (eventIdNumber_lt hid'), eventIdNumber_le_iff hid hid',
    hlex]
  have hticks : ((ofLex k).1 + 2 ^ 127) % 2 ^ 128 = (ofLex k).1 + 2 ^ 127 := by omega
  have hticks' : ((ofLex k').1 + 2 ^ 127) % 2 ^ 128 = (ofLex k').1 + 2 ^ 127 := by omega
  rw [hticks, hticks']
  generalize (ofLex k).1 = a at *
  generalize (ofLex k').1 = b at *
  have hlt : (a + 2 ^ 127).toNat < (b + 2 ^ 127).toNat ↔ a < b := by omega
  have heq : (a + 2 ^ 127).toNat = (b + 2 ^ 127).toNat ↔ a = b := by omega
  rw [hlt, heq]

/-- **Equal encodings are encodings of one key.** -/
theorem RetentionKey.toBytes_inj {k k' : RetentionKey} (h : k.Fits) (h' : k'.Fits)
    (hbytes : k.toBytes = k'.toBytes) : k = k' :=
  le_antisymm ((toBytes_le_iff h h').mp hbytes.le) ((toBytes_le_iff h' h).mp hbytes.ge)

/-- Flipping the sign bit of a two's complement is adding it. -/
theorem xor_signBit {n : ℕ} (h : n < 2 ^ 128) : n ^^^ (1 <<< 127) = (n + 2 ^ 127) % 2 ^ 128 := by
  have hbit : (1 <<< 127 : ℕ) = 2 ^ 127 := by rw [Nat.shiftLeft_eq, Nat.one_mul]
  have hlow : (n ^^^ 2 ^ 127) % 2 ^ 127 = n % 2 ^ 127 := by
    rw [Nat.xor_mod_two_pow, Nat.mod_self, Nat.xor_zero]
  have hhigh : (n ^^^ 2 ^ 127) / 2 ^ 127 = n / 2 ^ 127 ^^^ 1 := by
    rw [Nat.xor_div_two_pow, Nat.div_self (Nat.two_pow_pos _)]
  have htop : n / 2 ^ 127 = 0 ∨ n / 2 ^ 127 = 1 := by omega
  rw [hbit]
  rcases htop with hzero | hone
  · rw [hzero, Nat.zero_xor] at hhigh
    omega
  · rw [hone, Nat.xor_self] at hhigh
    omega

theorem RetentionKey.encode_length (k : RetentionKey) : k.encode.length = 48 := by
  simp [RetentionKey.encode]

/-- The 48 bytes spell the number. -/
theorem RetentionKey.value_encode {k : RetentionKey} (h : k.Fits) :
    BigEndian.value k.encode = k.toBytes := by
  obtain ⟨-, -, hhigh, hlow⟩ := h
  have hbase : 256 ^ 16 = 2 ^ 128 := by decide
  have hticks : (((ofLex k).1 % 2 ^ 128).toNat ^^^ (1 <<< 127)) = (((ofLex k).1 + 2 ^ 127) % 2 ^ 128).toNat := by
    rw [xor_signBit (by omega)]
    omega
  rw [RetentionKey.encode, hticks, BigEndian.value_append, BigEndian.value_append, BigEndian.value_encode,
    BigEndian.value_encode (by rw [hbase]; exact hhigh), BigEndian.value_encode (by rw [hbase]; exact hlow)]
  · rw [List.length_append, BigEndian.encode_length, BigEndian.encode_length, RetentionKey.toBytes, eventIdNumber,
      hbase]
    rfl
  · rw [hbase]
    omega

/-- **Keys are stored in their order.** A scan of the table in the order of its bytes is a scan by priority. -/
theorem RetentionKey.encode_lt_iff {k k' : RetentionKey} (h : k.Fits) (h' : k'.Fits) :
    k.encode < k'.encode ↔ k < k' := by
  rw [BigEndian.lt_iff (by rw [encode_length, encode_length]), value_encode h, value_encode h', ← not_le,
    toBytes_le_iff h' h, not_le]

/-! ## 5. The result

All of it, for every policy that the constructor accepts. -/

theorem fraction_lt {distance : ℕ} (h : distance < 2 ^ 256) : fraction distance < 2 ^ 64 := by
  rw [fraction, Nat.shiftRight_eq_div_pow]
  omega

/-- **The arithmetic of retention keys is exact.**  For every policy that the constructor accepts, the logarithm
is monotone; every checked operation of a key succeeds, within the documented widths; a key rises with the
time of its event, does not rise with the length of the payload or the distance of the holder, and is
encoded without loss in the order of keys. -/
theorem retentionKey_exact {sizeFloor tauSeconds alphaQ16 betaQ16 maxBonus graceSeconds : UInt32}
    {p : RetentionPolicy}
    (hnew : RetentionPolicy.new sizeFloor tauSeconds alphaQ16 betaQ16 maxBonus graceSeconds = some p) :
    (∀ a b, a ≤ b → ln a ≤ ln b) ∧
      (∀ distance < 2 ^ 256, ∀ contentLen < 2 ^ 32, ∀ t < 2 ^ 64,
        p.keyTicksChecked (fraction distance) contentLen t =
            some (p.keyTicksAtDistance (fraction distance) contentLen t) ∧
          TermsFit p (fraction distance) contentLen t ∧
          ∀ event : EventId, event.Full → (p.keyAtDistance event distance contentLen t).Fits) ∧
      (∀ event distance contentLen t t', t < t' →
        p.keyAtDistance event distance contentLen t < p.keyAtDistance event distance contentLen t') ∧
      (∀ event distance contentLen contentLen' t, contentLen ≤ contentLen' →
        p.keyAtDistance event distance contentLen' t ≤ p.keyAtDistance event distance contentLen t) ∧
      (∀ event distance distance' contentLen t, distance ≤ distance' →
        p.keyAtDistance event distance' contentLen t ≤ p.keyAtDistance event distance contentLen t) ∧
      ∀ k k' : RetentionKey, k.Fits → k'.Fits → k.encode.length = 48 ∧
        (k.encode = k'.encode → k = k') ∧ (k.encode < k'.encode ↔ k < k') := by
  have hp := RetentionPolicy.new_fits hnew
  refine ⟨fun a b hle => ln_mono hle, ?_, fun event distance contentLen _ _ h =>
    keyAtDistance_lt_of_time p event distance contentLen h, fun event distance _ _ t h =>
    keyAtDistance_le_of_len p event distance h t, fun event _ _ contentLen t h =>
    keyAtDistance_le_of_distance p event h contentLen t, ?_⟩
  · intro distance hdistance contentLen hlen t htime
    have hfits := @keyTicks_fits p hp (fraction distance) _ _ hlen htime
    exact ⟨keyTicksChecked_eq hp (fraction_lt hdistance) hlen htime,
      termsFit hp (fraction_lt hdistance) hlen htime, fun event hevent => ⟨hfits.1, hfits.2, hevent⟩⟩
  · intro k k' h h'
    refine ⟨k.encode_length, fun hencode => RetentionKey.toBytes_inj h h' ?_, RetentionKey.encode_lt_iff h h'⟩
    rw [← RetentionKey.value_encode h, ← RetentionKey.value_encode h', hencode]

/-- The experimental policy: a later event is dropped later. -/
theorem retentionKey_exact_experimental :
    ∃ p, RetentionPolicy.new 1024 2592000 32768 65536 64 86400 = some p ∧
      p.keyAtDistance (toLex (0, 0)) 0 1024 0 < p.keyAtDistance (toLex (0, 0)) 0 1024 1 := by
  have hnew : RetentionPolicy.new 1024 2592000 32768 65536 64 86400 = some _ := rfl
  exact ⟨_, hnew, (retentionKey_exact hnew).2.2.1 _ _ _ _ _ Nat.zero_lt_one⟩

end Rostra
