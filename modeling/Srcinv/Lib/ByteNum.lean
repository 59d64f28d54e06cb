import Mathlib.Data.Nat.Digits.Defs
import Mathlib.Tactic.Ring

/-!
# Numbers in bytes

A list of bytes spells a number, the lowest byte first.  `bytesInt` reads it in a type of a given
width, with or without a sign.

* `bytesNat_take` — the first bytes spell the number modulo a power of 256.
* `wrap_signed_iff` — a number with a sign and its low bits.
* `bytesInt_spell` — the bytes that spell a number hold it in the width of the type and the bytes.
-/

namespace Srcinv.Lib

/-- The number that bytes spell. -/
def bytesNat (bytes : List Nat) : Nat := Nat.ofDigits 256 (bytes.map (· % 256))

/-- The low `n` bytes of a number. -/
def spell (n : Nat) (x : Int) : List Nat := (List.range n).map fun i => (x / 256 ^ i % 256).toNat

/-- The low `width` bits of a number, read with or without a sign. -/
def wrap (signed : Bool) (width : Nat) (x : Int) : Int :=
  if signed then x.bmod (2 ^ width) else x % 2 ^ width

/-- The number that bytes hold in a type. -/
def bytesInt (signed : Bool) (prec : Nat) (bytes : List Nat) : Int :=
  wrap signed (min prec (8 * bytes.length)) (bytesNat bytes)

theorem bytesNat_take (n : Nat) (bytes : List Nat) :
    bytesNat (bytes.take n) = bytesNat bytes % 256 ^ n := by
  unfold bytesNat
  rw [List.map_take]
  refine (Nat.ofDigits_mod_pow_eq_ofDigits_take n (by decide) _ fun x hx => ?_).symm
  obtain ⟨y, -, rfl⟩ := List.mem_map.mp hx
  exact Nat.mod_lt y (by decide)

theorem bytesNat_lt (bytes : List Nat) : bytesNat bytes < 256 ^ bytes.length := by
  unfold bytesNat
  have h := Nat.ofDigits_lt_base_pow_length (by decide : 1 < 256)
    (fun x hx => by obtain ⟨y, -, rfl⟩ := List.mem_map.mp hx; exact Nat.mod_lt y (by decide) :
      ∀ x ∈ bytes.map (· % 256), x < 256)
  rwa [List.length_map] at h

theorem bytesNat_append_zeros (bytes : List Nat) (n : Nat) :
    bytesNat (bytes ++ List.replicate n 0) = bytesNat bytes := by
  unfold bytesNat
  rw [List.map_append, List.map_replicate]
  exact Nat.ofDigits_append_replicate_zero _

/-- Bytes copied over cleared ones. -/
theorem bytesNat_copy (n : Nat) (bytes : List Nat) :
    bytesNat ((bytes ++ List.replicate n 0).take n) = bytesNat bytes % 256 ^ n := by
  rw [bytesNat_take, bytesNat_append_zeros]

/-- The bytes that spell a number spell it modulo a power of 256. -/
theorem bytesNat_spell (n : Nat) (x : Int) : (bytesNat (spell n x) : Int) = x % 256 ^ n := by
  induction n with
  | zero => simp [bytesNat, spell]
  | succ n ih =>
    have hdigit : 0 ≤ x / 256 ^ n % 256 := Int.emod_nonneg _ (by decide)
    have hlt : x / 256 ^ n % 256 < 256 := Int.emod_lt_of_pos _ (by decide)
    have hsplit : bytesNat (spell (n + 1) x) =
        bytesNat (spell n x) + 256 ^ n * (x / 256 ^ n % 256).toNat := by
      unfold bytesNat spell
      rw [List.range_succ, List.map_append, List.map_append, Nat.ofDigits_append]
      have hmod : (x / 256 ^ n % 256).toNat % 256 = (x / 256 ^ n % 256).toNat :=
        Nat.mod_eq_of_lt (by omega)
      simp [hmod]
    rw [hsplit]
    push_cast
    rw [ih, Int.toNat_of_nonneg hdigit]
    have hpow : (256 : Int) ^ (n + 1) = 256 ^ n * 256 := pow_succ 256 n
    have hx := Int.mul_ediv_add_emod x (256 ^ n)
    have hq := Int.mul_ediv_add_emod (x / 256 ^ n) 256
    have hmod := Int.mul_ediv_add_emod x (256 ^ n * 256)
    rw [← Int.ediv_ediv_of_nonneg (by positivity)] at hmod
    have hexp : x = 256 ^ n * (256 * (x / 256 ^ n / 256) + x / 256 ^ n % 256) + x % 256 ^ n := by
      rw [hq, hx]
    have hring : (256 : Int) ^ n * (256 * (x / 256 ^ n / 256) + x / 256 ^ n % 256) =
        256 ^ n * 256 * (x / 256 ^ n / 256) + 256 ^ n * (x / 256 ^ n % 256) := by ring
    rw [hpow]
    omega

@[simp] theorem length_spell (n : Nat) (x : Int) : (spell n x).length = n := by
  unfold spell
  rw [List.length_map, List.length_range]

theorem take_spell (n m : Nat) (x : Int) : (spell m x).take n = spell (min n m) x := by
  unfold spell
  rw [← List.map_take, List.take_range]

/-- Numbers are spelled alike where they agree modulo a power of 256. -/
theorem spell_eq_iff {n : Nat} {x y : Int} :
    spell n x = spell n y ↔ x % 256 ^ n = y % 256 ^ n := by
  constructor
  · intro h
    rw [← bytesNat_spell, ← bytesNat_spell, h]
  · intro h
    unfold spell
    refine List.map_congr_left fun i hi => ?_
    have hdigit : ∀ z : Int, z / 256 ^ i % 256 = z % 256 ^ n / 256 ^ i % 256 := fun z => by
      obtain ⟨k, rfl⟩ := Nat.exists_eq_add_of_lt (List.mem_range.mp hi)
      have hsplit : z = z % 256 ^ (i + k + 1) + 256 ^ i * (256 * (256 ^ k *
          (z / 256 ^ (i + k + 1)))) := by
        have hdiv := Int.mul_ediv_add_emod z (256 ^ (i + k + 1))
        have hpow : (256 : Int) ^ i * (256 * (256 ^ k * (z / 256 ^ (i + k + 1)))) =
            256 ^ (i + k + 1) * (z / 256 ^ (i + k + 1)) := by ring
        omega
      have hpos : (256 : Int) ^ i ≠ 0 := by positivity
      calc z / 256 ^ i % 256
          = (z % 256 ^ (i + k + 1) + 256 ^ i * (256 * (256 ^ k * (z / 256 ^ (i + k + 1))))) /
              256 ^ i % 256 := by rw [← hsplit]
        _ = z % 256 ^ (i + k + 1) / 256 ^ i % 256 := by
          rw [Int.add_mul_ediv_left _ _ hpos, Int.add_mul_emod_self_left]
    rw [hdigit x, hdigit y, h]

/-- A number is known in `n` bytes from what it is in `m`: those above are zero. -/
def FitsBytes (m n : Nat) (x : Int) : Prop := n ≤ m ∨ x % 256 ^ n < 256 ^ m

theorem fitsBytes_iff {m n : Nat} {x : Int} :
    x % 256 ^ m % 256 ^ n = x % 256 ^ n ↔ FitsBytes m n x := by
  unfold FitsBytes
  by_cases hle : n ≤ m
  · exact iff_of_true (Int.emod_emod_of_dvd x (pow_dvd_pow 256 hle)) (Or.inl hle)
  · have hlt : m < n := Nat.lt_of_not_le hle
    have hpow : (256 : Int) ^ m ≤ 256 ^ n := pow_le_pow_right₀ (by decide) (Nat.le_of_lt hlt)
    have hnonneg : 0 ≤ x % 256 ^ m := Int.emod_nonneg x (by positivity)
    have hmod : x % 256 ^ m < 256 ^ m := Int.emod_lt_of_pos x (by positivity)
    rw [Int.emod_eq_of_lt hnonneg (lt_of_lt_of_le hmod hpow), or_iff_right hle]
    constructor
    · exact fun heq => heq ▸ hmod
    · intro hbelow
      have hmod' := Int.emod_emod_of_dvd x (pow_dvd_pow (256 : Int) (Nat.le_of_lt hlt))
      rw [← hmod', Int.emod_eq_of_lt (Int.emod_nonneg x (by positivity)) hbelow]

/-- The low bits of a number do not depend on what is above them. -/
theorem wrap_emod (signed : Bool) {width n : Nat} (h : width ≤ n) (x : Int) :
    wrap signed width (x % 2 ^ n) = wrap signed width x := by
  have hdvd : (2 : Int) ^ width ∣ 2 ^ n := pow_dvd_pow 2 h
  unfold wrap
  split
  · rw [Int.bmod_eq_bmod_iff_bmod_sub_eq_zero, ← Int.dvd_iff_bmod_eq_zero]
    have hsub : (2 : Int) ^ n ∣ x % 2 ^ n - x := ⟨-(x / 2 ^ n), by
      have := Int.mul_ediv_add_emod x (2 ^ n)
      rw [Int.mul_neg]
      omega⟩
    exact (by exact_mod_cast hdvd : ((2 ^ width : Nat) : Int) ∣ 2 ^ n).trans hsub
  · exact Int.emod_emod_of_dvd x hdvd

/-- Reading a number modulo its width changes it by a multiple of that. -/
theorem wrap_sub_dvd (signed : Bool) (width : Nat) (x : Int) :
    (2 : Int) ^ width ∣ wrap signed width x - x := by
  unfold wrap
  split
  · exact_mod_cast Int.dvd_bmod_sub_self (x := x) (m := 2 ^ width)
  · refine ⟨-(x / 2 ^ width), ?_⟩
    have := Int.mul_ediv_add_emod x (2 ^ width)
    rw [Int.mul_neg]
    omega

theorem wrap_range (signed : Bool) (width : Nat) (x : Int) :
    -2 ^ width ≤ wrap signed width x ∧ wrap signed width x < 2 ^ width := by
  have hpos : 0 < 2 ^ width := Nat.two_pow_pos width
  have hcast : ((2 ^ width : Nat) : Int) = 2 ^ width := by push_cast; rfl
  unfold wrap
  split
  · have hlow := Int.le_bmod (x := x) hpos
    have hhigh := Int.bmod_lt (x := x) hpos
    omega
  · have hlow := Int.emod_nonneg x (b := 2 ^ width) (by omega)
    have hhigh := Int.emod_lt_of_pos x (b := 2 ^ width) (by omega)
    omega

theorem wrap_wrap (signed : Bool) (width : Nat) (x : Int) :
    wrap signed width (wrap signed width x) = wrap signed width x := by
  unfold wrap
  split
  · exact Int.bmod_bmod
  · exact Int.emod_emod_of_dvd x (dvd_refl _)

/-- What `n` bytes spell is the number in the width of the type and the bytes. -/
theorem bytesInt_spell (signed : Bool) (prec n : Nat) (x : Int) :
    bytesInt signed prec (spell n x) = wrap signed (min prec (8 * n)) x := by
  have hpow : (256 : Int) ^ n = 2 ^ (8 * n) := by rw [pow_mul]; rfl
  unfold bytesInt
  rw [length_spell, bytesNat_spell, hpow]
  exact wrap_emod signed (Nat.min_le_right ..) x

/-! ## Single bits -/

/-- **A number with a sign is that of its low bits exactly where all bits above are sign bits.** -/
theorem wrap_signed_iff {w k m : Nat} (hw : 0 < w) (hle : w ≤ k) (hm : m < 2 ^ k) :
    wrap true k m = wrap true w m ↔ ∀ i, w ≤ i → i < k → m.testBit i = m.testBit (w - 1) := by
  have hk : wrap true k m = (BitVec.ofNat k m).toInt := by
    rw [BitVec.toInt_eq_toNat_bmod, BitVec.toNat_ofNat, Nat.mod_eq_of_lt hm]
    rfl
  have hw' : wrap true w m = ((BitVec.ofNat w m).signExtend k).toInt := by
    rw [BitVec.toInt_signExtend_of_le hle, BitVec.toInt_eq_toNat_bmod, BitVec.toNat_ofNat,
      ← wrap_emod true (Nat.le_refl w)]
    push_cast
    rfl
  have hmsb : (BitVec.ofNat w m).msb = m.testBit (w - 1) := by
    have hlast : w - 1 < w := by omega
    rw [BitVec.msb_eq_getLsbD_last, BitVec.getLsbD_ofNat, decide_eq_true hlast, Bool.true_and]
  rw [hk, hw', BitVec.toInt_inj]
  constructor
  · intro heq i hi hik
    have hbit := congrArg (fun x => x.getLsbD i) heq
    simp only [BitVec.getLsbD_ofNat, BitVec.getLsbD_signExtend, hmsb, hik, decide_true,
      Bool.true_and, if_neg (Nat.not_lt.mpr hi)] at hbit
    exact hbit
  · intro h
    refine BitVec.eq_of_getLsbD_eq fun i hik => ?_
    simp only [BitVec.getLsbD_ofNat, BitVec.getLsbD_signExtend, hmsb, hik, decide_true,
      Bool.true_and]
    by_cases hi : i < w
    · simp only [hi, decide_true, Bool.true_and, if_true]
    · rw [if_neg hi]
      exact h i (Nat.not_lt.mp hi) hik

/-- A number without a sign is that of its low bits exactly where no bit above is set. -/
theorem wrap_unsigned_iff {w k m : Nat} (hm : m < 2 ^ k) :
    wrap false k m = wrap false w m ↔ ∀ i, w ≤ i → i < k → m.testBit i = false := by
  have hbits : wrap false k m = wrap false w m ↔ m = m % 2 ^ w := by
    unfold wrap
    simp only [Bool.false_eq_true, if_false]
    norm_cast
    rw [Nat.mod_eq_of_lt hm]
  rw [hbits]
  constructor
  · intro heq i hi _
    rw [heq, Nat.testBit_mod_two_pow, decide_eq_false (Nat.not_lt.mpr hi), Bool.false_and]
  · intro h
    refine Nat.eq_of_testBit_eq fun i => ?_
    rw [Nat.testBit_mod_two_pow]
    by_cases hi : i < w
    · rw [decide_eq_true hi, Bool.true_and]
    · rw [decide_eq_false hi, Bool.false_and]
      by_cases hik : i < k
      · exact h i (Nat.not_lt.mp hi) hik
      · exact Nat.testBit_lt_two_pow (Nat.lt_of_lt_of_le hm
          (Nat.pow_le_pow_right (by decide) (Nat.not_lt.mp hik)))

end Srcinv.Lib
