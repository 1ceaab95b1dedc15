/-
# Clocks

Durations and instants of the tasks, in nanoseconds.  `Instant` is the monotonic clock of `tokio::time`, which a run
advances by itself or in explicit steps; it has nothing to do with the `Timestamp` of an event, which is the wall clock
of its author in seconds.

`Duration` in Rust is a `u64` of seconds and a `u32` of nanoseconds below 10^9, so it has a greatest value, and the
two multiplications differ in what they do beyond it: one returns nothing, the other stays there.  Retry delays are
computed with both.
-/
import Mathlib.Algebra.Order.Ring.Nat

namespace Rostra.Client

abbrev Duration := ℕ
abbrev Instant := ℕ

def Duration.fromSecs (n : ℕ) : Duration := n * 1000000000

/-- `Duration::MAX`: `u64::MAX` seconds and 999 999 999 nanoseconds. -/
def Duration.max : Duration := (2 ^ 64 - 1) * 1000000000 + 999999999

/-- `Duration::checked_mul`: nothing if the product is out of range. -/
def Duration.checkedMul (d : Duration) (n : ℕ) : Option Duration :=
  if d * n ≤ Duration.max then some (d * n) else none

/-- `Duration::saturating_mul`: the greatest duration if the product is out of range. -/
def Duration.saturatingMul (d : Duration) (n : ℕ) : Duration := min (d * n) Duration.max

end Rostra.Client
