/-
# The retention policy

`rostra-core::retention`: the fixed-point eviction key and the grace interval.  The database
uses three things of it: `graceElapsed` (the quota gate), `graceSeconds` (index deadlines) and
`key` (the static eviction order).  All arithmetic is on integers, as in the source, and the
logarithm is the source's own loop: 32 squarings of a 63-bit mantissa.

A key is stored as 48 big-endian bytes; here it is the number those bytes spell, so that the
byte order of the index is the order of numbers.
-/
import Rostra.Core.Event
import Rostra.Dm.Device

namespace Rostra

open Dm (checkedSub fits)

/-- Version-1 parameters.  `RetentionPolicy::new` refuses the three zeros. -/
structure RetentionPolicy where
  sizeFloor : ℕ
  tauSeconds : ℕ
  alphaQ16 : ℕ
  betaQ16 : ℕ
  maxBonus : ℕ
  graceSeconds : ℕ
  sizeFloorPos : 0 < sizeFloor
  tauSecondsPos : 0 < tauSeconds
  maxBonusPos : 0 < maxBonus
  deriving DecidableEq

namespace RetentionPolicy

/-- Validate explicit parameters. -/
def new (sizeFloor tauSeconds alphaQ16 betaQ16 maxBonus graceSeconds : UInt32) : Option RetentionPolicy :=
  if h : 0 < sizeFloor.toNat ∧ 0 < tauSeconds.toNat ∧ 0 < maxBonus.toNat then
    some
      { sizeFloor := sizeFloor.toNat
        tauSeconds := tauSeconds.toNat
        alphaQ16 := alphaQ16.toNat
        betaQ16 := betaQ16.toNat
        maxBonus := maxBonus.toNat
        graceSeconds := graceSeconds.toNat
        sizeFloorPos := h.1
        tauSecondsPos := h.2.1
        maxBonusPos := h.2.2 }
  else none

def LN_2 : ℕ := 2977044471

/-- One of the 32 squarings: the mantissa is renormalised and its integer bit recorded. -/
def lnStep (acc : ℕ × ℕ) (bit : ℕ) : ℕ × ℕ :=
  let squared := (acc.1 * acc.1) >>> 63
  if 2 ^ 64 ≤ squared then (squared >>> 1, acc.2 ||| 2 ^ bit) else (squared, acc.2)

/-- Natural logarithm of a nonzero 64-bit value, in Q32. -/
def ln (value : ℕ) : ℕ :=
  let exponent := Nat.log2 value
  let fraction := ((List.range 32).reverse.foldl lnStep (value <<< (63 - exponent), 0)).2
  (((exponent <<< 32) ||| fraction) * LN_2) >>> 32

/-- Has the first-materialization grace elapsed?  An absent or future origin fails shut. -/
def graceElapsed (p : RetentionPolicy) (firstMaterialized : Option Timestamp)
    (now : Timestamp) : Bool :=
  match firstMaterialized with
  | some first => decide (first ≤ now) && decide (p.graceSeconds ≤ now - first)
  | none => false

/-- A nonnegative weighted term, truncated after the multiplication. -/
def weight (p : RetentionPolicy) (log exponent : ℕ) : ℕ := log * p.tauSeconds * exponent / 65536

/-- The key's virtual timestamp in signed Q32 seconds. -/
def keyTicksAtDistance (p : RetentionPolicy) (distanceQ64 contentLen : ℕ)
    (effectiveTimestamp : Timestamp) : ℤ :=
  let size := ln (max contentLen p.sizeFloor) - ln p.sizeFloor
  let bonus := min (64 * LN_2 - ln (max distanceQ64 1)) (ln p.maxBonus)
  (effectiveTimestamp <<< 32 : ℕ) - (p.weight size p.alphaQ16 : ℤ) + (p.weight bonus p.betaQ16 : ℤ)

/-- `RetentionDistance::fraction`: the leading 64 bits of a 256-bit distance. -/
def fraction (distance : ℕ) : ℕ := distance >>> 192

/-! The same arithmetic with every operation of the source checked: the width of each sum, product, shift and
cast, and the order of the operands of each subtraction. -/

/-- `u64::leading_zeros`. -/
def leadingZeros (value : ℕ) : ℕ := if value = 0 then 64 else 63 - Nat.log2 value

/-- An `i128`. -/
def fitsI128 (x : ℤ) : Option ℤ := if -2 ^ 127 ≤ x ∧ x < 2 ^ 127 then some x else none

def lnStepChecked (acc : ℕ × ℕ) (bit : ℕ) : Option (ℕ × ℕ) := do
  let product ← fits 128 (acc.1 * acc.1)
  let squared := product >>> 63
  if 2 ^ 64 ≤ squared then
    let flag ← fits 64 (2 ^ bit)
    return (squared >>> 1, acc.2 ||| flag)
  else
    return (squared, acc.2)

/-- `debug_assert_ne!(value, 0)` comes first. -/
def lnChecked (value : ℕ) : Option ℕ :=
  if value = 0 then none
  else do
    let exponent ← checkedSub 63 (leadingZeros value)
    let shift ← checkedSub 63 exponent
    let mantissa ← fits 128 (value <<< shift)
    let (_, fraction) ← (List.range 32).reverse.foldlM lnStepChecked (mantissa, 0)
    let whole ← fits 64 (exponent <<< 32)
    let product ← fits 128 ((whole ||| fraction) * LN_2)
    fits 64 (product >>> 32)

def weightChecked (p : RetentionPolicy) (log exponent : ℕ) : Option ℕ := do
  let scaled ← fits 127 (log * p.tauSeconds)
  let product ← fits 127 (scaled * exponent)
  return product / 65536

def keyTicksChecked (p : RetentionPolicy) (distanceQ64 contentLen : ℕ) (effectiveTimestamp : Timestamp) :
    Option ℤ := do
  let size ← checkedSub (← lnChecked (max contentLen p.sizeFloor)) (← lnChecked p.sizeFloor)
  let ceiling ← fits 64 (64 * LN_2)
  let bonus ← checkedSub ceiling (← lnChecked (max distanceQ64 1))
  let cap ← lnChecked p.maxBonus
  let age ← fits 127 (effectiveTimestamp <<< 32)
  let reduced ← fitsI128 (age - (← p.weightChecked size p.alphaQ16 : ℕ))
  fitsI128 (reduced + (← p.weightChecked (min bonus cap) p.betaQ16 : ℕ))

/-- 256-bit id bytes as a number. -/
def eventIdNumber (id : EventId) : ℕ := (ofLex id).1 * 2 ^ 128 + (ofLex id).2

variable [Primitives]

/-- The 48-byte static key: sign-flipped 128-bit ticks, then the full event id. -/
def key (p : RetentionPolicy) (event : EventId) (holder : RostraId) (contentLen : ℕ)
    (effectiveTimestamp : Timestamp) : ℕ :=
  let distance := Primitives.eventCoordinate event ^^^ Primitives.holderCoordinate holder
  let ticks := p.keyTicksAtDistance distance contentLen effectiveTimestamp
  ((ticks + 2 ^ 127) % 2 ^ 128).toNat * 2 ^ 256 + eventIdNumber event

end RetentionPolicy

end Rostra
