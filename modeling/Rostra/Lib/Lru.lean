/-
# Orders of use

A list of keys, the most recently used first.  Using a key moves it to the front, so the list depends
only on the last use of each key, and the keys at its end are those that were used least recently.
-/
import Mathlib.Data.List.Nodup
import Mathlib.Data.List.Induction

namespace Rostra.Lru

variable {K : Type} [DecidableEq K]

/-- A key is used. It moves to the front, or is new there; the others stay in their order. -/
def touch (queue : List K) (k : K) : List K := k :: queue.erase k

/-- The keys in the order of their last uses, the latest one first. Earlier uses of a key do not show. -/
def order (uses : List K) : List K := uses.foldl touch []

theorem order_snoc (uses : List K) (k : K) : order (uses ++ [k]) = touch (order uses) k := by
  simp [order]

theorem mem_touch {queue : List K} {k k' : K} : k' ∈ touch queue k ↔ k' = k ∨ k' ∈ queue := by
  unfold touch
  rw [List.mem_cons]
  by_cases h : k' = k
  · simp [h]
  · simp [h, List.mem_erase_of_ne h]

theorem nodup_touch {queue : List K} (h : queue.Nodup) (k : K) : (touch queue k).Nodup :=
  List.nodup_cons.mpr ⟨h.not_mem_erase, h.erase k⟩

theorem nodup_order (uses : List K) : (order uses).Nodup := by
  induction uses using List.reverseRecOn with
  | nil => exact List.nodup_nil
  | append_singleton uses k ih =>
    rw [order_snoc]
    exact nodup_touch ih k

/-- Using a key that is shown, in a list where some keys are hidden. -/
theorem filter_touch {queue : List K} (h : queue.Nodup) {p : K → Bool} {k : K} (hk : p k = true) :
    (touch queue k).filter p = touch (queue.filter p) k := by
  unfold touch
  rw [List.filter_cons_of_pos hk, h.erase_eq_filter, (h.filter p).erase_eq_filter, List.filter_filter,
    List.filter_filter]
  simp only [Bool.and_comm]

/-- Whether the used key itself was hidden before makes no difference. -/
theorem touch_filter_ne {queue : List K} (h : queue.Nodup) (k : K) :
    touch (queue.filter (· ≠ k)) k = touch queue k := by
  unfold touch
  rw [(h.filter _).erase_eq_filter, h.erase_eq_filter, List.filter_filter]
  refine congrArg _ (List.filter_congr fun k' _ => ?_)
  by_cases heq : k' = k
  · simp [heq]
  · simp [heq]

end Rostra.Lru
