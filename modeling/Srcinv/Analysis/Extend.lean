import Srcinv.Lib.ByteNum
import Srcinv.Analysis.Assign

/-!
# Extending an integer (`analysis/gcc/c.cc`)

`dsv_extend` copies the sign bit of an integer to the bits above it.  Which bit that is and how far
it is copied is read from the node that the value was made for: a type, a declaration, or the
declaration of a bit-field.  An access to a node that is not there or to a bit beyond the value is
`none`.

* `dsvExtendNode` — `dsv_extend` on the bytes of a value.
* `dsvExtendNode_exact` — where it extends the number that the bits of the node have.
-/

namespace Srcinv.Analysis

open Srcinv.Lib

/-! ## Nodes -/

/-- An integral type: `TYPE_UNSIGNED`, `TYPE_SIZE`, `TYPE_PRECISION`, and `TYPE_SIZE` of its
    `TREE_TYPE`, which most types do not have. -/
structure IntTypeNode where
  isUnsigned : Bool
  size : Nat
  prec : Nat
  base : Option Nat
  prec_pos : 0 < prec
  prec_le : prec ≤ size

/-- The nodes that a value is made for.  A declaration with `DECL_BIT_FIELD` has its own type, the
    declared one (`DECL_BIT_FIELD_TYPE`) and `DECL_SIZE`. -/
inductive IntNode where
  | type (t : IntTypeNode)
  | decl (t : IntTypeNode)
  | bitField (t bitFieldType : IntTypeNode) (size : { n : Nat // 0 < n })

namespace IntNode

/-- `TYPE_UNSIGNED` of `type`. -/
def isUnsigned : IntNode → Bool
  | type t => t.isUnsigned
  | decl t => t.isUnsigned
  | bitField _ t _ => t.isUnsigned

/-- `msb_pos`. -/
def msbPos : IntNode → Nat
  | type t => t.size - 1
  | decl t => t.size - 1
  | bitField _ _ size => size.val - 1

/-- `bits`.  A type is never its own `TREE_TYPE`; a bit-field may have the declared type. -/
def bits : IntNode → Option Nat
  | type t => t.base.map (min t.size)
  | decl t => some t.size
  | bitField t bitFieldType _ => some (min bitFieldType.size t.size)

/-- The bits of the node's own number. -/
def width : IntNode → Nat
  | type t => t.prec
  | decl t => t.prec
  | bitField _ _ size => size.val

end IntNode

/-- A bit of the bytes. -/
def valBit (v1 : List Nat) (i : Nat) : Bool := (bytesNat v1).testBit i

/-- The loop over the bits from `lo` to before `hi`. -/
def setBits (v1 : List Nat) (lo hi : Nat) : Option (List Nat) :=
  if hi ≤ lo then some v1
  else if 8 * v1.length < hi then none
  else some (spell v1.length (bytesNat v1 ||| (2 ^ hi - 2 ^ lo) : Nat))

/-- `dsv_extend` of the bytes of a `DSVT_INT_CST`. -/
def dsvExtendNode (n : IntNode) (v1 : List Nat) : Option (List Nat) :=
  if n.isUnsigned then some v1
  else if 8 * v1.length ≤ n.msbPos then none
  else if ¬ valBit v1 n.msbPos then some v1
  else n.bits.bind (setBits v1 (n.msbPos + 1))

/-! ## Numbers that keep their value -/

/-- The bytes that are left hold, in all their bits, the number that the node's bits had, and stay
    when they are extended once more. -/
def ExtendRight (n : IntNode) (v1 : List Nat) : Prop :=
  ∃ out, dsvExtendNode n v1 = some out ∧ out.length = v1.length ∧
    wrap (!n.isUnsigned) (8 * v1.length) (bytesNat out) =
      wrap (!n.isUnsigned) n.width (bytesNat v1) ∧
    dsvExtendNode n out = some out

/-- All bits from `lo` on are `b`. -/
def FilledFrom (v1 : List Nat) (lo : Nat) (b : Bool) : Prop :=
  ∀ i, lo ≤ i → i < 8 * v1.length → valBit v1 i = b

/-- With a sign the bits above the number's own are sign bits before, and a type has a `TREE_TYPE`
    if its top bit is set; of a bit-field with its sign bit set, they are where `bits` does not
    reach. -/
def SignedMet (v1 : List Nat) : IntNode → Prop
  | .type t => (valBit v1 (t.size - 1) = true → t.base.isSome) ∧
      FilledFrom v1 t.prec (valBit v1 (t.prec - 1))
  | .decl t => FilledFrom v1 t.prec (valBit v1 (t.prec - 1))
  | .bitField t bitFieldType size =>
    if valBit v1 (size - 1) then
      (size.val < min bitFieldType.size t.size → min bitFieldType.size t.size ≤ 8 * v1.length) ∧
        FilledFrom v1 (max size.val (min bitFieldType.size t.size)) true
    else FilledFrom v1 size.val false

/-- **Where a number is extended.**  Without a sign the bits above its own are clear before. -/
def ExtendMet (n : IntNode) (v1 : List Nat) : Prop :=
  if n.isUnsigned then FilledFrom v1 n.width false
  else n.msbPos < 8 * v1.length ∧ SignedMet v1 n

/-! ## Setting bits -/

variable {n : IntNode} {v1 : List Nat}

theorem bytesNat_lt_two (v1 : List Nat) : bytesNat v1 < 2 ^ (8 * v1.length) := by
  rw [pow_mul]
  exact bytesNat_lt v1

theorem testBit_mask {lo hi : Nat} (h : lo ≤ hi) (i : Nat) :
    (2 ^ hi - 2 ^ lo).testBit i = (decide (lo ≤ i) && decide (i < hi)) := by
  have hmul : 2 ^ hi - 2 ^ lo = 2 ^ lo * (2 ^ (hi - lo) - 1) := by
    rw [Nat.mul_sub, Nat.mul_one, ← pow_add, Nat.add_sub_cancel' h]
  rw [hmul, Nat.testBit_two_pow_mul, Nat.testBit_two_pow_sub_one]
  by_cases hi : lo ≤ i
  · rw [decide_eq_true hi, Bool.true_and, Bool.true_and]
    exact decide_eq_decide.mpr (by omega)
  · rw [decide_eq_false hi, Bool.false_and, Bool.false_and]

/-- The bits that are set. -/
theorem setBits_spec {lo hi : Nat} {out : List Nat} (h : setBits v1 lo hi = some out) :
    out.length = v1.length ∧
      (∀ i, valBit out i = (valBit v1 i || (decide (lo ≤ i) && decide (i < hi)))) ∧
      setBits out lo hi = some out := by
  unfold setBits at h ⊢
  by_cases hempty : hi ≤ lo
  · rw [if_pos hempty] at h ⊢
    cases h
    refine ⟨rfl, fun i => ?_, rfl⟩
    have hno : ¬ (lo ≤ i ∧ i < hi) := by omega
    rw [← Bool.decide_and, decide_eq_false hno, Bool.or_false]
  · rw [if_neg hempty] at h ⊢
    by_cases hfit : 8 * v1.length < hi
    · rw [if_pos hfit] at h
      cases h
    · rw [if_neg hfit] at h
      cases h
      have hmask : 2 ^ hi - 2 ^ lo < 2 ^ (8 * v1.length) := by
        have hpos : 0 < 2 ^ lo := Nat.two_pow_pos lo
        have hle : 2 ^ hi ≤ 2 ^ (8 * v1.length) := Nat.pow_le_pow_right (by decide) (by omega)
        have hpos' : 0 < 2 ^ (8 * v1.length) := Nat.two_pow_pos _
        omega
      have hlt := Nat.or_lt_two_pow (bytesNat_lt_two v1) hmask
      have hnat : bytesNat (spell v1.length (bytesNat v1 ||| (2 ^ hi - 2 ^ lo) : Nat)) =
          bytesNat v1 ||| (2 ^ hi - 2 ^ lo) := by
        have hspell := bytesNat_spell v1.length (bytesNat v1 ||| (2 ^ hi - 2 ^ lo) : Nat)
        rw [Int.emod_eq_of_lt (Int.natCast_nonneg _)] at hspell
        · exact Int.ofNat_inj.mp hspell
        · rw [pow_mul] at hlt
          exact_mod_cast hlt
      refine ⟨length_spell .., fun i => ?_, ?_⟩
      · unfold valBit
        rw [hnat, Nat.testBit_or, testBit_mask (by omega)]
      · rw [length_spell, if_neg hfit, hnat, Nat.or_assoc, Nat.or_self]

/-! ## Where the number is extended -/

/-- If the bytes stay, they have to hold the number before. -/
theorem extendRight_of_kept (h : dsvExtendNode n v1 = some v1) : ExtendRight n v1 ↔
    wrap (!n.isUnsigned) (8 * v1.length) (bytesNat v1) =
      wrap (!n.isUnsigned) n.width (bytesNat v1) := by
  constructor
  · rintro ⟨out, hout, -, hnum, -⟩
    cases h.symm.trans hout
    exact hnum
  · exact fun hnum => ⟨v1, h, rfl, hnum, h⟩

theorem not_extendRight (h : dsvExtendNode n v1 = none) : ¬ ExtendRight n v1 := by
  rintro ⟨out, hout, -⟩
  cases h.symm.trans hout

theorem width_pos (n : IntNode) : 0 < n.width := by
  cases n with
  | type t => exact t.prec_pos
  | decl t => exact t.prec_pos
  | bitField t bitFieldType size => exact size.2

theorem width_le (n : IntNode) : n.width ≤ n.msbPos + 1 := by
  cases n with
  | type t =>
    have := t.prec_le
    simp only [IntNode.width, IntNode.msbPos]
    omega
  | decl t =>
    have := t.prec_le
    simp only [IntNode.width, IntNode.msbPos]
    omega
  | bitField t bitFieldType size =>
    simp only [IntNode.width, IntNode.msbPos]
    omega

/-- A number with a sign whose bytes stay. -/
theorem extendRight_signed (hs : n.isUnsigned = false) (hmsb : n.msbPos < 8 * v1.length)
    (h : dsvExtendNode n v1 = some v1) :
    ExtendRight n v1 ↔ FilledFrom v1 n.width (valBit v1 (n.width - 1)) := by
  have hle : n.width ≤ 8 * v1.length := by
    have := width_le n
    omega
  rw [extendRight_of_kept h, hs]
  exact wrap_signed_iff (width_pos n) hle (bytesNat_lt_two v1)

/-- The bits that `dsv_extend` sets of a bit-field. -/
theorem extendRight_bitField {t bitFieldType : IntTypeNode} {size : { n : Nat // 0 < n }}
    (hs : bitFieldType.isUnsigned = false) (hmsb : size.val - 1 < 8 * v1.length)
    (hset : valBit v1 (size.val - 1) = true) :
    ExtendRight (.bitField t bitFieldType size) v1 ↔
      (size.val < min bitFieldType.size t.size → min bitFieldType.size t.size ≤ 8 * v1.length) ∧
        FilledFrom v1 (max size.val (min bitFieldType.size t.size)) true := by
  have hpos := size.2
  have hsize : size.val - 1 + 1 = size.val := by omega
  have hstep : ∀ v : List Nat, v.length = v1.length → valBit v (size.val - 1) = true →
      dsvExtendNode (.bitField t bitFieldType size) v =
        setBits v size.val (min bitFieldType.size t.size) := fun v hlen hbit => by
    unfold dsvExtendNode
    simp only [IntNode.isUnsigned, IntNode.msbPos, IntNode.bits, hs, Bool.false_eq_true, if_false,
      hlen, if_neg (Nat.not_le.mpr hmsb), hbit, not_true_eq_false, Option.bind_some, hsize]
  generalize min bitFieldType.size t.size = bits at *
  by_cases hfit : size.val < bits → bits ≤ 8 * v1.length
  · rw [and_iff_right hfit]
    obtain ⟨out, hout⟩ : ∃ out, setBits v1 size.val bits = some out := by
      unfold setBits
      split
      · exact ⟨v1, rfl⟩
      · split
        · omega
        · exact ⟨_, rfl⟩
    obtain ⟨hlen, hbits, hagain⟩ := setBits_spec hout
    have hlow : valBit out (size.val - 1) = true := by
      rw [hbits, hset, Bool.true_or]
    -- The low bits stay, so that they hold the same number.
    have hsame : wrap true size.val (bytesNat v1) = wrap true size.val (bytesNat out) := by
      rw [← wrap_emod true (Nat.le_refl size.val) (bytesNat v1),
        ← wrap_emod true (Nat.le_refl size.val) (bytesNat out)]
      norm_cast
      congr 2
      refine Nat.eq_of_testBit_eq fun i => ?_
      rw [Nat.testBit_mod_two_pow, Nat.testBit_mod_two_pow]
      by_cases hi : i < size.val
      · have hbit := hbits i
        rw [decide_eq_false (Nat.not_le.mpr hi), Bool.false_and, Bool.or_false] at hbit
        exact congrArg _ hbit.symm
      · rw [decide_eq_false hi, Bool.false_and, Bool.false_and]
    have hright : ExtendRight (.bitField t bitFieldType size) v1 ↔
        wrap true (8 * out.length) (bytesNat out) = wrap true size.val (bytesNat out) := by
      have hnot : (!(IntNode.bitField t bitFieldType size).isUnsigned) = true := by
        simp only [IntNode.isUnsigned, hs, Bool.not_false]
      constructor
      · rintro ⟨out', hout', -, hnum, -⟩
        rw [hstep v1 rfl hset, hout] at hout'
        cases hout'
        rw [hnot] at hnum
        rw [hlen, ← hsame]
        exact hnum
      · intro hnum
        refine ⟨out, (hstep v1 rfl hset).trans hout, hlen, ?_, (hstep out hlen hlow).trans hagain⟩
        rw [hnot, ← hlen, hnum, ← hsame]
        rfl
    rw [hright, wrap_signed_iff hpos (by omega) (bytesNat_lt_two out)]
    have htop : (bytesNat out).testBit (size.val - 1) = true := hlow
    rw [htop, hlen]
    constructor
    · intro h i hi hik
      have hbit : valBit out i = true := h i (by omega) hik
      rw [hbits, decide_eq_false (by omega : ¬ i < bits), Bool.and_false, Bool.or_false] at hbit
      exact hbit
    · intro h i hi hik
      have hbit : valBit out i = true := by
        rw [hbits]
        by_cases hbelow : i < bits
        · rw [decide_eq_true hi, decide_eq_true hbelow, Bool.true_and, Bool.or_true]
        · rw [h i (by omega) hik, Bool.true_or]
      exact hbit
  · refine iff_of_false (not_extendRight ?_) fun h => hfit h.1
    rw [hstep v1 rfl hset]
    unfold setBits
    rw [if_neg (by omega), if_pos (by omega)]

/-- **For every node and all bytes** `dsv_extend` is defined, keeps the number and changes nothing
    the second time exactly where `ExtendMet` holds. -/
theorem dsvExtendNode_exact (n : IntNode) (v1 : List Nat) :
    ExtendRight n v1 ↔ ExtendMet n v1 := by
  unfold ExtendMet
  cases hs : n.isUnsigned with
  | true =>
    rw [if_pos rfl, extendRight_of_kept (by unfold dsvExtendNode; rw [hs]; rfl), hs]
    exact wrap_unsigned_iff (bytesNat_lt_two v1)
  | false =>
    rw [if_neg (by decide)]
    by_cases hmsb : n.msbPos < 8 * v1.length
    · rw [and_iff_right hmsb]
      have hstep : dsvExtendNode n v1 = if valBit v1 n.msbPos then
          n.bits.bind (setBits v1 (n.msbPos + 1)) else some v1 := by
        unfold dsvExtendNode
        rw [hs, if_neg (by decide), if_neg (Nat.not_le.mpr hmsb), ite_not]
      have hnothing : ∀ size, 0 < size → ∀ bits ≤ size, setBits v1 (size - 1 + 1) bits = some v1 :=
        fun size hpos bits hle => if_pos (by omega)
      cases n with
      | type t =>
        have hpos : 0 < t.size := Nat.lt_of_lt_of_le t.prec_pos t.prec_le
        show _ ↔ (valBit v1 (t.size - 1) = true → t.base.isSome) ∧
          FilledFrom v1 t.prec (valBit v1 (t.prec - 1))
        by_cases hdef : valBit v1 (t.size - 1) = true → t.base.isSome
        · rw [and_iff_right hdef]
          refine extendRight_signed hs hmsb (hstep.trans ?_)
          split
          · rename_i hset
            obtain ⟨base, hbase⟩ := Option.isSome_iff_exists.mp (hdef hset)
            simp only [IntNode.bits, IntNode.msbPos, hbase, Option.map_some, Option.bind_some]
            exact hnothing t.size hpos _ (Nat.min_le_left ..)
          · rfl
        · refine iff_of_false (not_extendRight (hstep.trans ?_)) fun h => hdef h.1
          obtain ⟨hset, hno⟩ := Classical.not_imp.mp hdef
          refine (if_pos hset).trans ?_
          simp only [IntNode.bits, Option.not_isSome_iff_eq_none.mp hno, Option.map_none,
            Option.bind_none]
      | decl t =>
        have hpos : 0 < t.size := Nat.lt_of_lt_of_le t.prec_pos t.prec_le
        refine extendRight_signed hs hmsb (hstep.trans ?_)
        split
        · simp only [IntNode.bits, IntNode.msbPos, Option.bind_some]
          exact hnothing t.size hpos _ (Nat.le_refl _)
        · rfl
      | bitField t bitFieldType size =>
        rw [SignedMet]
        by_cases hset : valBit v1 (size.val - 1) = true
        · rw [if_pos hset]
          exact extendRight_bitField hs hmsb hset
        · rw [if_neg hset, ← Bool.eq_false_iff.mpr hset]
          exact extendRight_signed hs hmsb (hstep.trans (if_neg hset))
    · refine iff_of_false (not_extendRight ?_) fun h => hmsb h.1
      unfold dsvExtendNode
      rw [hs, if_neg (by decide), if_pos (Nat.not_lt.mp hmsb)]

/-- What the decoder's environment has of a node. -/
def IntNode.info (n : IntNode) : ExtendInfo := ⟨!n.isUnsigned, n.msbPos, n.bits.getD 0⟩

/-- Where `dsv_extend` is defined, it is that of the decoder. -/
theorem extendBytes_info {out : List Nat} (h : dsvExtendNode n v1 = some out) :
    bytesNat (extendBytes n.info v1) = bytesNat out := by
  unfold dsvExtendNode at h
  unfold extendBytes IntNode.info ExtendInfo.mask
  dsimp only
  cases hs : n.isUnsigned with
  | true =>
    rw [hs, if_pos rfl] at h
    cases h
    rfl
  | false =>
    rw [hs, if_neg (by decide)] at h
    split at h
    · cases h
    · by_cases hset : valBit v1 n.msbPos = true
      · rw [if_neg (not_not.mpr hset)] at h
        obtain ⟨bits, hbits, h⟩ := Option.bind_eq_some_iff.mp h
        rw [if_pos ⟨rfl, hset⟩, hbits, Option.getD_some]
        unfold setBits at h
        split at h
        · rename_i hle
          cases h
          have hzero : 2 ^ bits - 2 ^ (n.msbPos + 1) = 0 :=
            Nat.sub_eq_zero_of_le (Nat.pow_le_pow_right (by decide) hle)
          have hspell := bytesNat_spell v1.length (bytesNat v1)
          rw [Int.emod_eq_of_lt (Int.natCast_nonneg _) (by exact_mod_cast bytesNat_lt v1)] at hspell
          rw [hzero, Nat.or_zero]
          exact Int.ofNat_inj.mp hspell
        · split at h
          · cases h
          · cases h
            rfl
      · rw [if_pos hset] at h
        cases h
        rw [if_neg fun hno => hset hno.2]

/-- The type `int` is the node of an element of an array. -/
def intType : IntTypeNode := ⟨false, 32, 32, none, Nat.succ_pos 31, le_refl 32⟩

/-- A negative element: the `TREE_TYPE` of its type is not there. -/
theorem negative_element_undefined :
    dsvExtendNode (.type intType) [255, 255, 255, 255] = none ∧
      ¬ ExtendRight (.type intType) [255, 255, 255, 255] :=
  ⟨by decide, not_extendRight (by decide)⟩

end Srcinv.Analysis
