/-
# Device announcements

The part of `rostra-dm` that an ingested `DM_DEVICE` payload reaches: the fixed-width
announcement codec, the per-device reducer in which retirement is permanent, and the dyadic
cover under which the newest epoch of a device is indexed.
-/
import Rostra.Core.Event

namespace Rostra.Dm

def DM_MAX_ADVERTISED_KEY_LIFETIME : ℕ := 365 * 24 * 60 * 60
def DM_FUTURE_ANNOUNCEMENT_SKEW : ℕ := 5 * 60

/-- `i64::MAX as u64`. -/
def i64Max : ℕ := 2 ^ 63 - 1

structure EpochPublic where
  publicKey : Bytes
  sendFrom : ℕ
  sendUntil : ℕ
  decryptUntil : ℕ
  deriving DecidableEq

/-- An installation announcement; without an epoch it retires the device for good. -/
structure Announcement where
  deviceId : Bytes
  epoch : Option EpochPublic
  deriving DecidableEq

/-- Big-endian bytes as a number. -/
def beNat (b : Bytes) : ℕ := b.foldl (fun n x => n * 256 + x.toNat) 0

variable [Primitives]

/-- Timeless wire constraints. -/
def EpochPublic.validate (e : EpochPublic) : Bool :=
  decide (e.sendFrom < e.sendUntil) && decide (e.sendUntil ≤ e.decryptUntil) &&
    decide (e.decryptUntil ≤ i64Max) &&
    decide (e.decryptUntil - e.sendFrom ≤ DM_MAX_ADVERTISED_KEY_LIFETIME) &&
    Primitives.publicKeyValid e.publicKey

omit [Primitives] in
/-- Eligibility of the newest announcement; `saturating_add` stops at `u64::MAX`. -/
def EpochPublic.eligible (e : EpochPublic) (now publishedAt : ℕ) : Bool :=
  decide (publishedAt ≤ min (now + DM_FUTURE_ANNOUNCEMENT_SKEW) (2 ^ 64 - 1)) &&
    decide (e.sendFrom ≤ now) && decide (now < e.sendUntil)

/-- Version-one announcements are 18 bytes (retired) or 74 bytes (with an epoch). -/
def Announcement.decode (bytes : Bytes) (publishedAt : ℕ) : Option Announcement :=
  if !(bytes.length == 18 || bytes.length == 74) || bytes.headD 0 != 1 then none
  else
    let deviceId := (bytes.drop 2).take 16
    match bytes.getD 1 0, bytes.length with
    | 0, 18 => some ⟨deviceId, none⟩
    | 1, 74 =>
      let epoch : EpochPublic :=
        { publicKey := (bytes.drop 18).take 32
          sendFrom := beNat ((bytes.drop 50).take 8)
          sendUntil := beNat ((bytes.drop 58).take 8)
          decryptUntil := beNat ((bytes.drop 66).take 8) }
      -- an announcement may not be published before its own sending window opens
      if !epoch.validate || publishedAt < epoch.sendFrom || i64Max < publishedAt then none
      else some ⟨deviceId, some epoch⟩
    | _, _ => none

/-- Durable per-account, per-device state. -/
structure DeviceState where
  retired : Bool := false
  latest : Option (Timestamp × ShortEventId × EpochPublic) := none
  deriving DecidableEq

omit [Primitives] in
/-- Apply one authenticated announcement: retirement dominates every active event. -/
def DeviceState.apply (s : DeviceState) (a : Announcement) (timestamp : Timestamp)
    (event : ShortEventId) : DeviceState :=
  match a.epoch with
  | some epoch =>
    let newer := match s.latest with
      | some (oldTime, oldEvent, _) => decide (toLex (oldTime, oldEvent) < toLex (timestamp, event))
      | none => true
    if !s.retired && newer then { s with latest := some (timestamp, event, epoch) } else s
  | none => ⟨true, none⟩

/-! ## The dyadic cover

The two functions of the index: the blocks of an interval, and the blocks of a point. -/

/-- `cursor.trailing_zeros().min(64)`. -/
def alignment (cursor : ℕ) : ℕ := ((List.range 64).find? fun k => cursor.testBit k).getD 64

/-- Disjoint aligned blocks covering `[cursor, stop)`, each as `(depth, start)`. -/
def intervalPrefixes (cursor stop : ℕ) : List (ℕ × ℕ) :=
  if cursor < stop then
    let power := min (alignment cursor) (Nat.log2 (stop - cursor))
    (64 - power, cursor % 2 ^ 64) :: intervalPrefixes (cursor + 2 ^ power) stop
  else []
termination_by stop - cursor
decreasing_by
  have := Nat.two_pow_pos (min (alignment cursor) (Nat.log2 (stop - cursor)))
  omega

/-- `u128::leading_zeros`. -/
def leadingZeros (n : ℕ) : ℕ := if n = 0 then 128 else 127 - Nat.log2 n

/-- An operation whose operands have to be in order, and one whose result has to fit. -/
def checkedSub (a b : ℕ) : Option ℕ := if b ≤ a then some (a - b) else none

def fits (bits n : ℕ) : Option ℕ := if n < 2 ^ bits then some n else none

/-- The same loop with every operation of the source checked, for a number of rounds: the two `u128`
subtractions, the `u32` one and the width of the shift, the casts to `u8` and to `u64`, and the sum. -/
def intervalPrefixesChecked : ℕ → ℕ → ℕ → Option (List (ℕ × ℕ))
  | 0, cursor, stop => if cursor < stop then none else some []
  | rounds + 1, cursor, stop =>
    if cursor < stop then do
      let remaining ← checkedSub 127 (leadingZeros (← checkedSub stop cursor))
      let power := min (alignment cursor) remaining
      let depth ← fits 8 (← checkedSub 64 power)
      let start ← fits 64 cursor
      let size ← if power < 128 then fits 128 (2 ^ power) else none
      let rest ← intervalPrefixesChecked rounds (← fits 128 (cursor + size)) stop
      some ((depth, start) :: rest)
    else some []

/-- The 65 blocks a point belongs to: its leading `depth` bits are kept. -/
def pointPrefixes (now : ℕ) : List (ℕ × ℕ) :=
  (List.range 65).map fun depth =>
    (depth, if depth = 0 then 0 else now &&& (((2 ^ 64 - 1) <<< (64 - depth)) % 2 ^ 64))

end Rostra.Dm
