/-
# Self-delimiting codes

A code writes values as bytes and reads one value back from the front of a byte string, whatever follows.
That is the law of `Codec`, and it makes a code injective and prefix-free (`Codec.prefixFree`): values can
be written one after the other without separators.

* A code is `Canonical` when nothing else is read: what was read is the encoding of what came out.
  A variable-width number is not, as every width spells the small numbers too.
* A code is `Sized` when all its encodings have one length.  A canonical one that reads every string of that
  length is a bijection with the strings of that length (`Codec.bijective`).

`bytes`, `pair`, `map`, `option` and `bool` build the codes of records and sums from smaller ones, and carry
both properties along.
-/
import Mathlib.Data.Prod.Basic
import Mathlib.Logic.Equiv.Basic
import Rostra.Lib.BigEndian

/-- A code for the values of `α`. -/
structure Codec (α : Type) where
  encode : α → List UInt8
  /-- Reads one value; the rest is left. -/
  decode : List UInt8 → Option (α × List UInt8)
  decode_encode : ∀ a rest, decode (encode a ++ rest) = some (a, rest)

namespace Codec

variable {α β : Type} {c : Codec α} {d : Codec β} {n m : ℕ}

/-! ## 1. Reading

The law of a code, and the two properties it may have in addition. -/

/-- **Encodings can be told apart in a stream.** -/
theorem prefixFree (c : Codec α) {a a' : α} {rest rest' : List UInt8}
    (h : c.encode a ++ rest = c.encode a' ++ rest') : a = a' ∧ rest = rest' := by
  have hread := c.decode_encode a rest
  rw [h, c.decode_encode] at hread
  cases hread
  exact ⟨rfl, rfl⟩

/-- Different values have different encodings, with nothing behind them. -/
theorem encode_injective (c : Codec α) : Function.Injective c.encode := by
  intro a a' h
  exact (c.prefixFree (congrArg (· ++ []) h)).1

/-- Only encodings are read. What was taken off the front of the string is what would be written again. -/
def Canonical (c : Codec α) : Prop := ∀ b a rest, c.decode b = some (a, rest) → b = c.encode a ++ rest

/-- All encodings have this length, so a record of such codes can be cut without being read. -/
def Sized (c : Codec α) (n : ℕ) : Prop := ∀ a, (c.encode a).length = n

/-- Every string that is long enough is read. A reader of flags or tags does not, as it refuses the values that
stand for nothing. -/
def Reads (c : Codec α) (n : ℕ) : Prop := ∀ b, n ≤ b.length → ∃ r, c.decode b = some r

/-- **A code of fixed-width records is a bijection**: every string of the right length is exactly one of them. -/
theorem bijective (hc : c.Canonical) (hs : c.Sized n) (hr : c.Reads n) {b : List UInt8} (hb : b.length = n) :
    ∃! a, c.encode a = b := by
  obtain ⟨⟨a, rest⟩, hread⟩ := hr b hb.ge
  have hsplit := hc b a rest hread
  have hrest : rest = [] := by
    have hlength := congrArg List.length hsplit
    rw [List.length_append, hs a, hb] at hlength
    exact List.length_eq_zero_iff.mp (by omega)
  rw [hrest, List.append_nil] at hsplit
  exact ⟨a, hsplit.symm, fun a' ha' => c.encode_injective (ha'.trans hsplit)⟩

/-! ## 2. Words

Byte strings of a fixed length, and the numbers they spell. -/

/-- A number of `n` bytes. The bound is part of the type, so what is decoded can always be encoded again. -/
abbrev Word (n : ℕ) := { v : ℕ // v < 256 ^ n }

/-- The word that a string of `n` bytes spells. -/
def Word.ofBytes {n : ℕ} (b : List UInt8) (h : b.length = n) : Word n :=
  ⟨BigEndian.value b, h ▸ BigEndian.value_lt b⟩

/-- `n` bytes, the most significant one first. A string that is too short is refused, and of a longer one the rest
is left. -/
def bytes (n : ℕ) : Codec (Word n) where
  encode w := BigEndian.encode n w.1
  decode b := if h : n ≤ b.length then some (.ofBytes (b.take n) (List.length_take_of_le h), b.drop n) else none
  decode_encode := by
    intro w rest
    have hlength := BigEndian.encode_length n w.1
    rw [dif_pos (by simp)]
    congr 2
    · apply Subtype.ext
      show BigEndian.value ((BigEndian.encode n w.1 ++ rest).take n) = w.1
      rw [List.take_left' hlength, BigEndian.value_encode w.2]
    · exact List.drop_left' hlength

theorem bytes_canonical (n : ℕ) : (bytes n).Canonical := by
  intro b w rest h
  simp only [bytes] at h
  split at h
  · next hle =>
    cases h
    have hlength : (b.take n).length = n := List.length_take_of_le hle
    show b = BigEndian.encode n (BigEndian.value (b.take n)) ++ b.drop n
    have hback := BigEndian.encode_value (b.take n)
    rw [hlength] at hback
    rw [hback, List.take_append_drop]
  · cases h

theorem bytes_sized (n : ℕ) : (bytes n).Sized n := fun w => BigEndian.encode_length n w.1

theorem bytes_reads (n : ℕ) : (bytes n).Reads n := fun _ h => ⟨_, dif_pos h⟩

/-! ## 3. Records

One code after the other. -/

/-- No bytes. -/
def unit : Codec Unit := ⟨fun _ => [], fun b => some ((), b), fun _ _ => rfl⟩

theorem unit_sized : unit.Sized 0 := fun _ => rfl

theorem unit_canonical : unit.Canonical := by
  intro b a rest h
  cases h
  rfl

/-- One after the other. The second code is read from where the first one stopped. -/
def pair (c : Codec α) (d : Codec β) : Codec (α × β) where
  encode p := c.encode p.1 ++ d.encode p.2
  decode b := (c.decode b).bind fun r => (d.decode r.2).map fun r' => ((r.1, r'.1), r'.2)
  decode_encode := by
    intro p rest
    rw [List.append_assoc, c.decode_encode, Option.bind_some, d.decode_encode, Option.map_some]

theorem Canonical.pair (hc : c.Canonical) (hd : d.Canonical) : (c.pair d).Canonical := by
  intro b p rest h
  obtain ⟨⟨a, middle⟩, hfirst, hrest⟩ := Option.bind_eq_some_iff.mp h
  obtain ⟨⟨a', rest'⟩, hsecond, heq⟩ := Option.map_eq_some_iff.mp hrest
  cases heq
  show b = (c.encode a ++ d.encode a') ++ rest'
  rw [List.append_assoc, ← hd middle a' rest' hsecond]
  exact hc b a middle hfirst

theorem Sized.pair (hc : c.Sized n) (hd : d.Sized m) : (c.pair d).Sized (n + m) := by
  intro p
  show (c.encode p.1 ++ d.encode p.2).length = n + m
  rw [List.length_append, hc, hd]

theorem Reads.pair (hcc : c.Canonical) (hcs : c.Sized n) (hc : c.Reads n) (hd : d.Reads m) :
    (c.pair d).Reads (n + m) := by
  intro b hb
  obtain ⟨⟨a, rest⟩, hfirst⟩ := hc b (by omega)
  have hlength := congrArg List.length (hcc b a rest hfirst)
  rw [List.length_append, hcs a] at hlength
  obtain ⟨⟨a', rest'⟩, hsecond⟩ := hd rest (by omega)
  exact ⟨((a, a'), rest'), by simp [Codec.pair, hfirst, hsecond]⟩

/-- The same bytes for another type. -/
def map (c : Codec α) (e : α ≃ β) : Codec β where
  encode x := c.encode (e.symm x)
  decode b := (c.decode b).map fun r => (e r.1, r.2)
  decode_encode := by
    intro x rest
    rw [c.decode_encode, Option.map_some, e.apply_symm_apply]

variable {e : α ≃ β}

theorem Canonical.map (hc : c.Canonical) : (c.map e).Canonical := by
  intro b x rest h
  obtain ⟨⟨a, rest'⟩, hread, heq⟩ := Option.map_eq_some_iff.mp h
  cases heq
  show b = c.encode (e.symm (e a)) ++ rest'
  rw [e.symm_apply_apply]
  exact hc b a rest' hread

theorem Sized.map (hc : c.Sized n) : (c.map e).Sized n := fun x => hc (e.symm x)

theorem Reads.map (hc : c.Reads n) : (c.map e).Reads n := by
  intro b hb
  obtain ⟨r, hr⟩ := hc b hb
  exact ⟨(e r.1, r.2), by simp [Codec.map, hr]⟩

/-! ## 4. Tags

A byte that says what comes next. -/

/-- A byte, one for `true` and zero for `false`. Any other byte is refused. -/
def bool : Codec Bool where
  encode a := [if a then 1 else 0]
  decode
    | 0 :: rest => some (false, rest)
    | 1 :: rest => some (true, rest)
    | _ => none
  decode_encode := by
    intro a rest
    cases a <;> rfl

/-- A byte that says whether a value follows: one, and the value, or zero and nothing. -/
def option (c : Codec α) : Codec (Option α) where
  encode
    | none => [0]
    | some a => 1 :: c.encode a
  decode
    | 0 :: rest => some (none, rest)
    | 1 :: rest => (c.decode rest).map fun r => (some r.1, r.2)
    | _ => none
  decode_encode := by
    intro a rest
    cases a with
    | none => rfl
    | some a =>
      show (c.decode (c.encode a ++ rest)).map _ = _
      rw [c.decode_encode]
      rfl

end Codec
