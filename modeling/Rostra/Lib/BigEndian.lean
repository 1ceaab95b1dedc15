/-
# Big-endian numbers

The fixed-width numbers of a wire format or of a table key.  `value` reads a byte string and `encode`
writes one of a given width; on strings of one width they are inverse to each other
(`value_encode`, `encode_value`), and the order of the strings, byte by byte from the left, is the order of
the numbers (`lt_iff`), which is why table keys are written this way.
-/
import Mathlib.Data.List.Induction
import Mathlib.Tactic.Ring

namespace BigEndian

/-- The number that a byte string spells. Leading zeros do not count, so strings of different lengths may spell the
same. -/
def value (b : List UInt8) : ℕ := b.foldl (fun n x => n * 256 + x.toNat) 0

/-- The last `width` bytes of a number. A number that needs more is cut off, and not refused. -/
def encode : ℕ → ℕ → List UInt8
  | 0, _ => []
  | width + 1, n => encode width (n / 256) ++ [UInt8.ofNat (n % 256)]

@[simp] theorem encode_length (width n : ℕ) : (encode width n).length = width := by
  induction width generalizing n with
  | zero => rfl
  | succ width ih => simp [encode, ih]

theorem value_snoc (b : List UInt8) (x : UInt8) : value (b ++ [x]) = value b * 256 + x.toNat := by
  simp [value]

theorem value_append (b c : List UInt8) : value (b ++ c) = value b * 256 ^ c.length + value c := by
  induction c using List.reverseRecOn with
  | nil => simp [value]
  | append_singleton c x ih =>
    rw [← List.append_assoc, value_snoc, ih, value_snoc, List.length_append, List.length_singleton]
    ring

theorem value_cons (x : UInt8) (b : List UInt8) :
    value (x :: b) = x.toNat * 256 ^ b.length + value b := by
  have h := value_append [x] b
  simpa [value] using h

theorem value_lt (b : List UInt8) : value b < 256 ^ b.length := by
  induction b using List.reverseRecOn with
  | nil => simp [value]
  | append_singleton b x ih =>
    have hx := x.toNat_lt
    rw [value_snoc, List.length_append, List.length_singleton, Nat.pow_succ]
    omega

/-- **A number that fits is read back.** -/
theorem value_encode {width : ℕ} : ∀ {n : ℕ}, n < 256 ^ width → value (encode width n) = n := by
  induction width with
  | zero =>
    intro n h
    have hzero : n = 0 := by simpa using h
    rw [hzero]
    rfl
  | succ width ih =>
    intro n h
    have hhigh : n / 256 < 256 ^ width := by
      rw [Nat.pow_succ] at h
      omega
    have hlow : (UInt8.ofNat (n % 256)).toNat = n % 256 := by
      rw [UInt8.toNat_ofNat']
      omega
    rw [encode, value_snoc, ih hhigh, hlow]
    omega

/-- **Each byte string is the encoding of its number.** -/
theorem encode_value (b : List UInt8) : encode b.length (value b) = b := by
  induction b using List.reverseRecOn with
  | nil => rfl
  | append_singleton b x ih =>
    have hx := x.toNat_lt
    have hhigh : (value b * 256 + x.toNat) / 256 = value b := by omega
    have hlow : (value b * 256 + x.toNat) % 256 = x.toNat := by omega
    rw [value_snoc, List.length_append, List.length_singleton, encode, hhigh, hlow, ih,
      UInt8.ofNat_toNat]

/-- **The order of byte strings is the order of their numbers.** -/
theorem lt_iff {b c : List UInt8} (hlength : b.length = c.length) : b < c ↔ value b < value c := by
  induction b generalizing c with
  | nil =>
    obtain rfl : c = [] := List.length_eq_zero_iff.mp hlength.symm
    simp
  | cons x b ih =>
    cases c with
    | nil => cases hlength
    | cons y c =>
      have hlength' : b.length = c.length := Nat.succ.inj hlength
      have hb := value_lt b
      have hc := value_lt c
      rw [List.cons_lt_cons_iff, ih hlength', value_cons, value_cons, hlength']
      rw [hlength'] at hb
      generalize 256 ^ c.length = m at hb hc ⊢
      rw [UInt8.lt_iff_toNat_lt, ← UInt8.toNat_inj]
      -- the first bytes decide, unless they are the same
      rcases lt_trichotomy x.toNat y.toNat with h | h | h
      · have hdigit : (x.toNat + 1) * m ≤ y.toNat * m := Nat.mul_le_mul_right m h
        rw [Nat.add_mul] at hdigit
        omega
      · rw [h]
        omega
      · have hdigit : (y.toNat + 1) * m ≤ x.toNat * m := Nat.mul_le_mul_right m h
        rw [Nat.add_mul] at hdigit
        omega

end BigEndian
