/-
# The dyadic cover

`interval_prefixes` cuts an interval into aligned blocks, and `point_prefixes` gives the blocks of each
size that a point is in.  An aligned block has the point exactly if it is one of the point's own.

* Section 1: the blocks are aligned, inside the interval, and each point is in one of them.
* Section 2: the two encodings agree.
* Section 3: there are 128 blocks at most.  The sizes grow as long as the alignment of the cursor is what
  limits them, and shrink from the first block on that is limited by what remains; both strictly.
* Section 4: no operation of the loop overflows.

The interval is half open, and its bounds may be any numbers of 64 bits. Both functions work on the axis below
2^64, and neither returns a block that leaves it. The number of blocks matters because each of them is a row of the
index, which an announcement writes and the next one removes again.
-/
import Rostra.Dm.Device
import Mathlib.Data.Nat.Bitwise

namespace Rostra.Dm

/-! ## 1. The blocks of an interval

At each turn the loop takes the largest block that starts at the cursor, is aligned, and does not reach beyond the
end. -/

theorem two_pow_alignment_dvd (cursor : ℕ) : 2 ^ alignment cursor ∣ cursor := by
  have hzero : ∀ i < alignment cursor, cursor.testBit i = false := by
    intro i hi
    unfold alignment at hi
    cases hf : (List.range 64).find? fun k => cursor.testBit k with
    | none =>
      rw [hf] at hi
      have hall := List.find?_eq_none.mp hf i (List.mem_range.mpr hi)
      simpa using hall
    | some k =>
      rw [hf] at hi
      have hbefore := (List.find?_range_eq_some.mp hf).2.2 i hi
      simpa using hbefore
  refine Nat.dvd_of_mod_eq_zero (Nat.eq_of_testBit_eq fun i => ?_)
  rw [Nat.testBit_mod_two_pow, Nat.zero_testBit]
  by_cases hi : i < alignment cursor
  · simp [hzero i hi]
  · simp [hi]

/-- The part of the axis a block stands for. -/
def InBlock (block : ℕ × ℕ) (now : ℕ) : Prop :=
  block.2 ≤ now ∧ now < block.2 + 2 ^ (64 - block.1)

theorem alignment_le (cursor : ℕ) : alignment cursor ≤ 64 := by
  unfold alignment
  cases hf : (List.range 64).find? fun k => cursor.testBit k with
  | none => exact le_rfl
  | some k => exact le_of_lt (List.mem_range.mp (List.find?_range_eq_some.mp hf).2.1)

/-- Every block is aligned to its size and inside the interval. -/
theorem intervalPrefixes_inside {cursor stop : ℕ} (hstop : stop < 2 ^ 64) {block : ℕ × ℕ}
    (h : block ∈ intervalPrefixes cursor stop) :
    block.1 ≤ 64 ∧ 2 ^ (64 - block.1) ∣ block.2 ∧ cursor ≤ block.2 ∧
      block.2 + 2 ^ (64 - block.1) ≤ stop := by
  fun_induction intervalPrefixes cursor stop with
  | case1 cursor hlt power ih =>
    have halign : power ≤ alignment cursor := Nat.min_le_left _ _
    have hle : power ≤ 64 := le_trans halign (alignment_le cursor)
    have hsize : 2 ^ power ≤ stop - cursor :=
      le_trans (Nat.pow_le_pow_right (by omega) (Nat.min_le_right _ _))
        (Nat.log2_self_le (by omega))
    rcases List.mem_cons.mp h with rfl | h
    · have hcursor : cursor % 2 ^ 64 = cursor := Nat.mod_eq_of_lt (by omega)
      have hpower : 64 - (64 - power) = power := by omega
      dsimp only
      rw [hcursor, hpower]
      refine ⟨by omega, ?_, le_rfl, by omega⟩
      exact dvd_trans (pow_dvd_pow 2 halign) (two_pow_alignment_dvd cursor)
    · obtain ⟨h₁, h₂, h₃, h₄⟩ := ih h
      exact ⟨h₁, h₂, le_trans (Nat.le_add_right _ _) h₃, h₄⟩
  | case2 cursor hlt => cases h

/-- **The blocks of an interval cover it**, each point once. -/
theorem intervalPrefixes_cover {cursor stop now : ℕ} (hstop : stop < 2 ^ 64)
    (hlo : cursor ≤ now) (hhi : now < stop) :
    ∃ block ∈ intervalPrefixes cursor stop, InBlock block now ∧
      ∀ other ∈ intervalPrefixes cursor stop, InBlock other now → other = block := by
  fun_induction intervalPrefixes cursor stop with
  | case1 cursor hlt power ih =>
    have hle : power ≤ 64 := le_trans (Nat.min_le_left _ _) (alignment_le cursor)
    have hcursor : cursor % 2 ^ 64 = cursor := Nat.mod_eq_of_lt (by omega)
    have hpower : 64 - (64 - power) = power := by omega
    have hfirst : InBlock (64 - power, cursor % 2 ^ 64) now ↔ now < cursor + 2 ^ power := by
      unfold InBlock
      rw [hcursor, hpower]
      omega
    by_cases hnow : now < cursor + 2 ^ power
    · refine ⟨_, List.mem_cons_self, hfirst.mpr hnow, fun other hother hin => ?_⟩
      rcases List.mem_cons.mp hother with rfl | hother
      · rfl
      · -- the other blocks start behind this one
        have hlater := (intervalPrefixes_inside hstop hother).2.2.1
        have := hin.1
        omega
    · obtain ⟨block, hmem, hin, honly⟩ := ih (by omega)
      refine ⟨block, List.mem_cons_of_mem _ hmem, hin, fun other hother hin' => ?_⟩
      rcases List.mem_cons.mp hother with rfl | hother
      · exact absurd (hfirst.mp hin') hnow
      · exact honly other hother hin'
  | case2 cursor hlt => omega

/-! ## 2. The blocks of a point

There is one of each size. Of two aligned blocks one contains the other or they have nothing in common, which is
why a match is all or nothing. -/

/-- Masking with `u64::MAX << k` clears the low `k` bits. -/
theorem and_mask (now : ℕ) (hnow : now < 2 ^ 64) (k : ℕ) :
    now &&& (((2 ^ 64 - 1) <<< k) % 2 ^ 64) = now / 2 ^ k * 2 ^ k := by
  refine Nat.eq_of_testBit_eq fun i => ?_
  rw [Nat.testBit_and, Nat.testBit_mod_two_pow, Nat.testBit_shiftLeft, Nat.testBit_two_pow_sub_one,
    Nat.testBit_mul_two_pow, Nat.testBit_div_two_pow]
  by_cases hi : k ≤ i
  · have hback : i - k + k = i := by omega
    by_cases hlow : i < 64
    · have : i - k < 64 := by omega
      simp [hi, hlow, hback, this]
    · have hzero : now.testBit i = false :=
        Nat.testBit_lt_two_pow (lt_of_lt_of_le hnow (Nat.pow_le_pow_right (by omega) (by omega)))
      simp [hzero, hback]
  · simp [hi]

/-- The blocks of a point, with the low bits cleared by division. -/
theorem mem_pointPrefixes {now : ℕ} (hnow : now < 2 ^ 64) {block : ℕ × ℕ} :
    block ∈ pointPrefixes now ↔
      block.1 ≤ 64 ∧ block.2 = now / 2 ^ (64 - block.1) * 2 ^ (64 - block.1) := by
  have hentry : ∀ depth, (if depth = 0 then 0
      else now &&& (((2 ^ 64 - 1) <<< (64 - depth)) % 2 ^ 64)) =
      now / 2 ^ (64 - depth) * 2 ^ (64 - depth) := by
    intro depth
    by_cases hd : depth = 0
    · subst hd
      rw [if_pos rfl, Nat.sub_zero, Nat.div_eq_of_lt hnow, Nat.zero_mul]
    · rw [if_neg hd, and_mask now hnow]
  simp only [pointPrefixes, hentry, List.mem_map, List.mem_range]
  constructor
  · rintro ⟨depth, hd, rfl⟩
    exact ⟨by omega, rfl⟩
  · rintro ⟨hd, hstart⟩
    exact ⟨block.1, by omega, Prod.ext rfl hstart.symm⟩

/-- An aligned block contains the point exactly if it is one of the point's own. -/
theorem inBlock_iff {now : ℕ} (hnow : now < 2 ^ 64) {block : ℕ × ℕ} (hdepth : block.1 ≤ 64)
    (halign : 2 ^ (64 - block.1) ∣ block.2) : InBlock block now ↔ block ∈ pointPrefixes now := by
  rw [mem_pointPrefixes hnow]
  obtain ⟨c, hc⟩ := halign
  have hpos := Nat.two_pow_pos (64 - block.1)
  unfold InBlock
  rw [hc]
  constructor
  · rintro ⟨hlo, hhi⟩
    have hdiv : now / 2 ^ (64 - block.1) = c := by
      refine Nat.div_eq_of_lt_le ?_ ?_
      · rw [Nat.mul_comm]
        exact hlo
      · rw [Nat.succ_mul, Nat.mul_comm]
        exact hhi
    rw [hdiv, Nat.mul_comm]
    exact ⟨hdepth, rfl⟩
  · rintro ⟨-, heq⟩
    rw [heq]
    have hmod := Nat.div_add_mod now (2 ^ (64 - block.1))
    have hlt := Nat.mod_lt now hpos
    rw [Nat.mul_comm] at hmod
    omega

/-- **A point is in the interval exactly if one block of each list is the same.** -/
theorem mem_cover_iff {start stop now : ℕ} (hstop : stop < 2 ^ 64) (hnow : now < 2 ^ 64) :
    (∃ block ∈ pointPrefixes now, block ∈ intervalPrefixes start stop) ↔
      start ≤ now ∧ now < stop := by
  constructor
  · rintro ⟨block, hpoint, hblock⟩
    obtain ⟨hdepth, halign, hlo, hhi⟩ := intervalPrefixes_inside hstop hblock
    have hin := (inBlock_iff hnow hdepth halign).mpr hpoint
    exact ⟨le_trans hlo hin.1, lt_of_lt_of_le hin.2 hhi⟩
  · rintro ⟨hlo, hhi⟩
    obtain ⟨block, hblock, hin, -⟩ := intervalPrefixes_cover hstop hlo hhi
    obtain ⟨hdepth, halign, -, -⟩ := intervalPrefixes_inside hstop hblock
    exact ⟨block, (inBlock_iff hnow hdepth halign).mp hin, hblock⟩

/-- And then it is the only one. -/
theorem cover_unique {start stop now : ℕ} (hstop : stop < 2 ^ 64) (hnow : now < 2 ^ 64)
    {b b' : ℕ × ℕ} (hb : b ∈ pointPrefixes now) (hb' : b' ∈ pointPrefixes now)
    (h : b ∈ intervalPrefixes start stop) (h' : b' ∈ intervalPrefixes start stop) : b = b' := by
  have hin : ∀ c ∈ pointPrefixes now, c ∈ intervalPrefixes start stop → InBlock c now := by
    intro c hc hmem
    obtain ⟨hdepth, halign, -, -⟩ := intervalPrefixes_inside hstop hmem
    exact (inBlock_iff hnow hdepth halign).mpr hc
  obtain ⟨hlo, hhi⟩ := (mem_cover_iff hstop hnow).mp ⟨b, hb, h⟩
  obtain ⟨block, -, -, honly⟩ := intervalPrefixes_cover hstop hlo hhi
  rw [honly b h (hin b hb h), honly b' h' (hin b' hb' h')]

theorem pointPrefixes_nodup (now : ℕ) : (pointPrefixes now).Nodup := by
  refine List.Nodup.map_on ?_ (List.nodup_range)
  intro d _ d' _ heq
  exact (Prod.mk.inj heq).1

/-! ## 3. The number of blocks

Each size comes twice at most, once on the way up and once on the way down. -/

theorem le_alignment {cursor k : ℕ} (hk : k ≤ 64) (h : 2 ^ k ∣ cursor) : k ≤ alignment cursor := by
  unfold alignment
  cases hf : (List.range 64).find? fun k => cursor.testBit k with
  | none => exact hk
  | some a =>
    by_contra hlt
    have hbit : cursor.testBit a = true := (List.find?_range_eq_some.mp hf).1
    have hzero := Nat.testBit_mod_two_pow cursor k a
    rw [Nat.mod_eq_zero_of_dvd h, Nat.zero_testBit, hbit, Bool.and_true] at hzero
    exact absurd (of_decide_eq_false hzero.symm) (by simpa using hlt)

/-- A step of the size of the alignment aligns the cursor better. -/
theorem two_pow_succ_dvd {cursor : ℕ} (h : alignment cursor < 64) :
    2 ^ (alignment cursor + 1) ∣ cursor + 2 ^ alignment cursor := by
  obtain ⟨c, hc⟩ := two_pow_alignment_dvd cursor
  have hodd : c % 2 = 1 := by
    by_contra heven
    have hdvd : 2 ^ (alignment cursor + 1) ∣ cursor := by
      obtain ⟨c', hc'⟩ : 2 ∣ c := by omega
      refine ⟨c', ?_⟩
      calc cursor = 2 ^ alignment cursor * (2 * c') := by rw [← hc']; exact hc
        _ = 2 ^ (alignment cursor + 1) * c' := by rw [pow_succ, Nat.mul_assoc]
    have := le_alignment h hdvd
    omega
  obtain ⟨c', hc'⟩ : 2 ∣ c + 1 := by omega
  refine ⟨c', ?_⟩
  calc cursor + 2 ^ alignment cursor = 2 ^ alignment cursor * (c + 1) := by
        rw [Nat.mul_add, Nat.mul_one, ← hc]
    _ = 2 ^ (alignment cursor + 1) * c' := by rw [hc', pow_succ, Nat.mul_assoc]

/-- The remaining part is limiting: the sizes shrink. -/
theorem length_shrinking {stop : ℕ} (k : ℕ) : ∀ {cursor : ℕ}, k ≤ 64 → stop - cursor < 2 ^ k →
    2 ^ k ∣ cursor → (intervalPrefixes cursor stop).length ≤ k := by
  induction k using Nat.strong_induction_on with
  | _ k ih =>
    intro cursor hk hrest halign
    rw [intervalPrefixes]
    split
    · next hlt =>
      have hne : stop - cursor ≠ 0 := by omega
      have hlog : Nat.log2 (stop - cursor) < k := (Nat.log2_lt hne).mpr hrest
      have hpower : min (alignment cursor) (Nat.log2 (stop - cursor)) = Nat.log2 (stop - cursor) :=
        Nat.min_eq_right (by have := le_alignment hk halign; omega)
      have hsize : stop - cursor < 2 ^ (Nat.log2 (stop - cursor) + 1) := Nat.lt_log2_self
      have hnext : (intervalPrefixes (cursor + 2 ^ Nat.log2 (stop - cursor)) stop).length ≤ _ :=
        ih _ hlog (by omega) (by rw [pow_succ] at hsize; omega)
          (Nat.dvd_add ((Nat.pow_dvd_pow 2 hlog.le).trans halign) (dvd_refl _))
      dsimp only
      rw [hpower, List.length_cons]
      omega
    · exact Nat.zero_le _

/-- The alignment is limiting: the sizes grow. -/
theorem length_growing {stop : ℕ} (hstop : stop < 2 ^ 64) (n : ℕ) : ∀ {cursor : ℕ},
    64 ≤ alignment cursor + n → (intervalPrefixes cursor stop).length ≤ n + 64 := by
  induction n with
  | zero =>
    intro cursor hn
    have halign := alignment_le cursor
    have h : (intervalPrefixes cursor stop).length ≤ 64 := length_shrinking 64 le_rfl (by omega)
      ((Nat.pow_dvd_pow 2 hn).trans (two_pow_alignment_dvd cursor))
    omega
  | succ n ih =>
    intro cursor hn
    by_cases hlt : cursor < stop
    · by_cases hlimit : Nat.log2 (stop - cursor) < alignment cursor
      · have halign := alignment_le cursor
        have h : (intervalPrefixes cursor stop).length ≤ _ := length_shrinking (alignment cursor) halign
          ((Nat.log2_lt (by omega)).mp hlimit) (two_pow_alignment_dvd cursor)
        omega
      · have hlog : Nat.log2 (stop - cursor) < 64 := (Nat.log2_lt (by omega)).mpr (by omega)
        have hnext := le_alignment (by omega) (@two_pow_succ_dvd cursor (by omega))
        have h := @ih (cursor + 2 ^ alignment cursor) (by omega)
        rw [intervalPrefixes, if_pos hlt]
        dsimp only
        rw [Nat.min_eq_left (Nat.le_of_not_lt hlimit), List.length_cons]
        omega
    · rw [intervalPrefixes, if_neg hlt]
      exact Nat.zero_le _

/-- **At most 128 rows.** -/
theorem length_intervalPrefixes {cursor stop : ℕ} (hstop : stop < 2 ^ 64) :
    (intervalPrefixes cursor stop).length ≤ 128 :=
  length_growing hstop 64 (Nat.le_add_left _ _)

/-! ## 4. The loop on machine integers

The end of an interval may be the largest number there is, and the cursor must not be moved beyond it. -/

/-- **No operation overflows**, as long as there are enough rounds. -/
theorem intervalPrefixesChecked_eq {stop : ℕ} (hstop : stop < 2 ^ 64) (rounds : ℕ) : ∀ {cursor : ℕ},
    (intervalPrefixes cursor stop).length ≤ rounds →
    intervalPrefixesChecked rounds cursor stop = some (intervalPrefixes cursor stop) := by
  induction rounds with
  | zero =>
    intro cursor hlength
    rw [intervalPrefixes] at hlength ⊢
    split at hlength
    · simp at hlength
    · next hlt => rw [intervalPrefixesChecked, if_neg hlt, if_neg hlt]
  | succ rounds ih =>
    intro cursor hlength
    rw [intervalPrefixes] at hlength ⊢
    rw [intervalPrefixesChecked]
    split
    · next hlt =>
      rw [if_pos hlt, List.length_cons] at hlength
      have hne : stop - cursor ≠ 0 := by omega
      have hlog : Nat.log2 (stop - cursor) < 64 := (Nat.log2_lt hne).mpr (by omega)
      have hself : 2 ^ Nat.log2 (stop - cursor) ≤ stop - cursor := Nat.log2_self_le hne
      generalize hpower : min (alignment cursor) (Nat.log2 (stop - cursor)) = power at hlength ⊢
      have hle : power ≤ Nat.log2 (stop - cursor) := hpower ▸ Nat.min_le_right _ _
      have hsize : 2 ^ power ≤ stop - cursor := (Nat.pow_le_pow_right (by omega) hle).trans hself
      have hzeros : 127 - leadingZeros (stop - cursor) = Nat.log2 (stop - cursor) := by
        rw [leadingZeros, if_neg hne]
        omega
      have hdiff : checkedSub stop cursor = some (stop - cursor) := if_pos hlt.le
      have hremaining : checkedSub 127 (leadingZeros (stop - cursor)) =
          some (Nat.log2 (stop - cursor)) := by
        rw [checkedSub, if_pos, hzeros]
        rw [leadingZeros, if_neg hne]
        omega
      have hdepth : checkedSub 64 power = some (64 - power) := if_pos (by omega)
      have hwidth : fits 8 (64 - power) = some (64 - power) := if_pos (by omega)
      have hstart : fits 64 cursor = some cursor := if_pos (by omega)
      have hshift : fits 128 (2 ^ power) = some (2 ^ power) := if_pos (by omega)
      have hnext : fits 128 (cursor + 2 ^ power) = some (cursor + 2 ^ power) := if_pos (by omega)
      have hrest := @ih (cursor + 2 ^ power) (by omega)
      have hcursor : cursor % 2 ^ 64 = cursor := Nat.mod_eq_of_lt (by omega)
      simp only [hdiff, hremaining, Option.bind_eq_bind, Option.bind_some, hpower, hdepth, hwidth, hstart,
        if_pos (by omega : power < 128), hshift, hnext, hrest, hcursor]
    · rfl

/-- The blocks are one behind the other. -/
theorem pairwise_intervalPrefixes {cursor stop : ℕ} (hstop : stop < 2 ^ 64) :
    (intervalPrefixes cursor stop).Pairwise fun b b' => b.2 + 2 ^ (64 - b.1) ≤ b'.2 := by
  fun_induction intervalPrefixes cursor stop with
  | case1 cursor hlt power ih =>
    refine List.pairwise_cons.mpr ⟨fun b hb => ?_, ih⟩
    have hle : power ≤ 64 := le_trans (Nat.min_le_left _ _) (alignment_le cursor)
    have hpower : 64 - (64 - power) = power := by omega
    dsimp only
    rw [hpower, Nat.mod_eq_of_lt (by omega)]
    exact (intervalPrefixes_inside hstop hb).2.2.1
  | case2 cursor hlt => exact List.Pairwise.nil

/-- **The dyadic cover.**  For all `u64` bounds the checked loop ends within 128 rounds without an overflow.
Its blocks are aligned and pairwise disjoint, there are 128 at most, and together they are the interval.  A
point has one of its 65 blocks among them if it is in the interval, and none otherwise. -/
theorem dyadic_cover (start stop now : UInt64) :
    ∃ blocks, intervalPrefixesChecked 128 start.toNat stop.toNat = some blocks ∧
      intervalPrefixes start.toNat stop.toNat = blocks ∧ blocks.length ≤ 128 ∧
      (∀ block ∈ blocks, block.1 ≤ 64 ∧ 2 ^ (64 - block.1) ∣ block.2) ∧
      blocks.Pairwise (fun b b' => ∀ x, ¬ (InBlock b x ∧ InBlock b' x)) ∧
      (∀ x, (∃ block ∈ blocks, InBlock block x) ↔ start.toNat ≤ x ∧ x < stop.toNat) ∧
      (pointPrefixes now.toNat).countP (· ∈ blocks) = if start ≤ now ∧ now < stop then 1 else 0 := by
  have hstop : stop.toNat < 2 ^ 64 := stop.toNat_lt
  have hnow : now.toNat < 2 ^ 64 := now.toNat_lt
  refine ⟨_, intervalPrefixesChecked_eq hstop 128 (length_intervalPrefixes hstop), rfl,
    length_intervalPrefixes hstop, fun block hblock => ?_, ?_, fun x => ⟨?_, ?_⟩, ?_⟩
  · obtain ⟨hdepth, halign, -, -⟩ := intervalPrefixes_inside hstop hblock
    exact ⟨hdepth, halign⟩
  · refine (pairwise_intervalPrefixes hstop).imp fun {b b'} hbehind x hboth => ?_
    exact absurd (hboth.1.2.trans_le hbehind) (not_lt_of_ge hboth.2.1)
  · rintro ⟨block, hblock, hin⟩
    obtain ⟨-, -, hlo, hhi⟩ := intervalPrefixes_inside hstop hblock
    exact ⟨hlo.trans hin.1, hin.2.trans_le hhi⟩
  · rintro ⟨hlo, hhi⟩
    obtain ⟨block, hblock, hin, -⟩ := intervalPrefixes_cover hstop hlo hhi
    exact ⟨block, hblock, hin⟩
  · rw [List.countP_eq_length_filter]
    split
    · next hin =>
      obtain ⟨block, hpoint, hblock⟩ := (mem_cover_iff hstop hnow).mpr
        ⟨UInt64.le_iff_toNat_le.mp hin.1, UInt64.lt_iff_toNat_lt.mp hin.2⟩
      have hsingle : (pointPrefixes now.toNat).filter (· ∈ intervalPrefixes start.toNat stop.toNat) =
          [block] := by
        refine List.Perm.eq_singleton ((List.perm_ext_iff_of_nodup ((pointPrefixes_nodup _).filter _)
          (List.nodup_singleton _)).mpr fun other => ?_)
        rw [List.mem_filter, List.mem_singleton, decide_eq_true_eq]
        constructor
        · rintro ⟨hother, hmem⟩
          exact cover_unique hstop hnow hother hpoint hmem hblock
        · rintro rfl
          exact ⟨hpoint, hblock⟩
      rw [hsingle, List.length_singleton]
    · next hout =>
      rw [List.length_eq_zero_iff, List.filter_eq_nil_iff]
      intro block hpoint hblock
      obtain ⟨hlo, hhi⟩ := (mem_cover_iff hstop hnow).mp ⟨block, hpoint, of_decide_eq_true hblock⟩
      exact hout ⟨UInt64.le_iff_toNat_le.mpr hlo, UInt64.lt_iff_toNat_lt.mpr hhi⟩

end Rostra.Dm
