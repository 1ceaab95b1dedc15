/-
# Receivers of a broadcast

`tokio::sync::broadcast` keeps the last values that were sent, in a ring; a receiver that falls behind
loses the oldest, and is told how many before it gets the next one.
-/
import Mathlib.Data.List.Basic

namespace Rostra.Broadcast

/-- One receiver: what is there for it, and what it has lost since it was last told. -/
structure Receiver (T : Type) where
  unread : List T := []
  missed : ℕ := 0
  deriving DecidableEq

variable {T : Type}

/-- A value is sent into a ring of `places`. If all are taken, the oldest is lost, and the loss is counted. -/
def Receiver.send (places : ℕ) (r : Receiver T) (v : T) : Receiver T :=
  if r.unread.length < places then { r with unread := r.unread ++ [v] }
  else { unread := r.unread.tail ++ [v], missed := r.missed + 1 }

/-- What `recv` and `try_recv` give; `Lagged` is an error with the number of lost values. -/
def Receiver.recv (r : Receiver T) : Option (Except ℕ T × Receiver T) :=
  if r.missed ≠ 0 then some (.error r.missed, { r with missed := 0 })
  else match r.unread with
    | [] => none
    | v :: unread => some (.ok v, { r with unread := unread })

/-- The receiver will find the value, or learn that it has lost some. It does not learn which ones, so it has to
look for itself. -/
def Receiver.Holds (r : Receiver T) (v : T) : Prop := v ∈ r.unread ∨ r.missed ≠ 0

theorem Receiver.Holds.send {r : Receiver T} {v : T} (h : r.Holds v) (places : ℕ) (sent : T) :
    (r.send places sent).Holds v := by
  unfold Receiver.send
  split
  · rcases h with h | h
    · exact .inl (List.mem_append_left _ h)
    · exact .inr h
  · exact .inr (Nat.succ_ne_zero _)

theorem Receiver.holds_send (places : ℕ) (r : Receiver T) (v : T) :
    (r.send places v).Holds v := by
  unfold Receiver.send
  split
  · exact .inl (List.mem_append_right _ (List.mem_singleton_self v))
  · exact .inr (Nat.succ_ne_zero _)

/-- **What is received is all that is lost sight of.** Either the value is still there, or it has just been handed
over, or the receiver has just been told that something is missing. -/
theorem Receiver.Holds.recv {r r' : Receiver T} {v : T} {result : Except ℕ T} (h : r.Holds v)
    (hr : r.recv = some (result, r')) :
    r'.Holds v ∨ result = .ok v ∨ ∃ n, result = .error n := by
  unfold Receiver.recv at hr
  split at hr
  · cases hr
    exact .inr (.inr ⟨_, rfl⟩)
  · next hm =>
    split at hr
    · cases hr
    · next sent unread hunread =>
      cases hr
      rcases h with h | h
      · rw [hunread] at h
        rcases List.mem_cons.mp h with rfl | h
        · exact .inr (.inl rfl)
        · exact .inl (.inl h)
      · exact absurd h hm

end Rostra.Broadcast
