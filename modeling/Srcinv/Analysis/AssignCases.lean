import Srcinv.Analysis.AssignMeaning

/-!
# Assignments of integers

A case that computes before it clears the place of the left side stores the operator of its operands
as they were.  `BIT_NOT_EXPR` and the copies that follow `dsv_alloc_data` clear it first, and the
pointer cases have offsets in bits.

* `computed_stores` — what is computed first is right where the left side is not too wide.
* `late_stores` — a copy after the place was cleared takes what was there, exactly where it is read
  elsewhere or is zero.
* `casePointerPlus_stores`, `casePointerDiff_stores` — an address has to stay in an `s32`, and a
  difference to be zero.
-/

namespace Srcinv.Analysis

open Srcinv.Lib DsHeap

variable {A : AssignEnv} {T : AssignTypes} {h : DsHeap} {t u : DsvLoc} {v w : DataStateVal}

/-! ## Operands -/

theorem intAt_int {raw : Nat} {v1 : List Nat} (ht : h.get? t = some (.sec1 raw .intCst v1)) :
    intAt T h t = some ((T.node raw).value v1) := by
  unfold intAt
  rw [ht]
  rfl

/-- What is known of an integer operand. -/
structure IntOperand (A : AssignEnv) (T : AssignTypes) (h : DsHeap) (t : DsvLoc) (x : Int)
    (raw : Nat) (v1 : List Nat) : Prop where
  get : h.get? t = some (.sec1 raw .intCst v1)
  value : intAt T h t = some x
  read : A.read raw v1 = x

theorem intOperand_of_find {a : AssignArgs} (hp : Plain A T a h) {raw : Nat} {v1 : List Nat}
    (hfind : dsvArgFind h a.rarg1 .intCst = some t ∨ dsvArgFind h a.rarg2 .intCst = some t)
    (ht : h.get? t = some (.sec1 raw .intCst v1)) :
    IntOperand A T h t ((T.node raw).value v1) raw v1 :=
  ⟨ht, intAt_int ht, hp t hfind raw v1 ht⟩

theorem intOperand_first {a : AssignArgs} (hp : Plain A T a h)
    (ht : dsvArgFind h a.rarg1 .intCst = some t) : ∃ x raw v1, IntOperand A T h t x raw v1 := by
  obtain ⟨raw, v1, hv⟩ := dsvArgFind_int ht
  exact ⟨_, raw, v1, intOperand_of_find hp (Or.inl ht) hv⟩

theorem intOperand_second {a : AssignArgs} (hp : Plain A T a h)
    (ht : dsvArgFind h a.rarg2 .intCst = some t) : ∃ x raw v1, IntOperand A T h t x raw v1 := by
  obtain ⟨raw, v1, hv⟩ := dsvArgFind_int ht
  exact ⟨_, raw, v1, intOperand_of_find hp (Or.inr ht) hv⟩

/-- All bytes of an integer spell the number that is read of them. -/
theorem bytesNat_extend (A : AssignEnv) (raw : Nat) (v1 : List Nat) :
    (bytesNat (extendBytes (A.ext raw) v1) : Int) = A.read raw v1 % 256 ^ v1.length := by
  have hlt := bytesNat_lt (extendBytes (A.ext raw) v1)
  have hpow : (256 : Int) ^ v1.length = 2 ^ (8 * v1.length) := by rw [pow_mul]; rfl
  have hdvd := wrap_sub_dvd (A.ext raw).signed (8 * v1.length)
    (bytesNat (extendBytes (A.ext raw) v1))
  rw [length_extendBytes] at hlt
  unfold AssignEnv.read bitsInt
  rw [length_extendBytes, hpow, Int.emod_eq_emod_iff_emod_sub_eq_zero.mpr
    (Int.emod_eq_zero_of_dvd hdvd), ← hpow]
  exact (Int.emod_eq_of_lt (Int.natCast_nonneg _) (by exact_mod_cast hlt)).symm

theorem read_range (A : AssignEnv) (raw : Nat) (v1 : List Nat) :
    -256 ^ v1.length ≤ A.read raw v1 ∧ A.read raw v1 < 256 ^ v1.length := by
  have hpow : (256 : Int) ^ v1.length = 2 ^ (8 * v1.length) := by rw [pow_mul]; rfl
  unfold AssignEnv.read bitsInt
  rw [length_extendBytes, hpow]
  exact wrap_range ..

/-! ## Places that are cleared -/

theorem allocInt_eq {h : DsHeap} {l : DsvLoc} {x : DataStateVal} (hx : h.get? l = some x) {n : Nat}
    (hpos : 0 < n) :
    allocInt h l n = some (h.set l (.sec1 x.raw .intCst (List.replicate n 0))) := by
  unfold allocInt dsvAllocData
  rw [dif_pos hpos, hx]
  rfl

theorem allocInt_zero (h : DsHeap) (l : DsvLoc) {n : Nat} (hpos : ¬ 0 < n) :
    allocInt h l n = none := by
  unfold allocInt
  rw [dif_neg hpos]

theorem writeBytes_eq {h : DsHeap} {l : DsvLoc} {raw : Nat} {type : Sec1} {v1 : List Nat}
    (hx : h.get? l = some (.sec1 raw type v1)) (bytes : List Nat) :
    writeBytes h l bytes = some (h.set l (.sec1 raw type bytes)) := by
  unfold writeBytes
  rw [hx]

theorem stores_spelled {h : DsHeap} {l : DsvLoc} {raw n : Nat} {bytes : List Nat} {z : Int}
    (hl : h.get? l = some (.sec1 raw .intCst bytes)) :
    Stores (some (.ok h (some l))) (some (l, SpellsInt n z)) ↔
      bytes.length = n ∧ (bytesNat bytes : Int) = z % 256 ^ n := by
  rw [stores_ok]
  constructor
  · rintro ⟨w, hw, raw', v1, rfl, hlen, hnum⟩
    cases hl.symm.trans hw
    exact ⟨hlen, hnum⟩
  · exact fun ⟨hlen, hnum⟩ => ⟨_, hl, raw, bytes, rfl, hlen, hnum⟩

theorem spelled_zero {n : Nat} (hn : ¬ 0 < n) (lx : DsvLoc × Int) : spelled n lx = none := if_neg hn

theorem spelled_pos {n : Nat} (hn : 0 < n) (lx : DsvLoc × Int) :
    spelled n lx = some (lx.1, SpellsInt n lx.2) := if_pos hn

/-- Bytes that are stored after the place was cleared. -/
theorem storeInt_stores {h : DsHeap} {l : DsvLoc} {x : DataStateVal} (hx : h.get? l = some x)
    {n : Nat} {bytes : List Nat} (hlen : bytes.length = n) {z : Int} :
    Stores ((storeInt h l n bytes).map fun h => .ok h (some l)) (spelled n (l, z)) ↔
      (bytesNat bytes : Int) = z % 256 ^ n := by
  by_cases hpos : 0 < n
  · have halloc := get?_set hx (.sec1 x.raw .intCst (List.replicate n 0))
    unfold storeInt
    rw [allocInt_eq hx hpos, Option.bind_some, writeBytes_eq halloc, Option.map_some,
      spelled_pos hpos]
    exact (stores_spelled (get?_set halloc _)).trans (and_iff_right hlen)
  · obtain rfl : n = 0 := by omega
    rw [spelled_zero hpos]
    refine iff_of_true trivial ?_
    rw [List.eq_nil_of_length_eq_zero hlen, pow_zero, Int.emod_one]
    rfl

theorem MemcpyBits.length_copy (B : MemcpyBits) (n : Nat) (bytes : List Nat) :
    (B.copy n bytes).length = n := by
  rw [B.copy_eq, List.length_take, List.length_append, List.length_replicate]
  omega

theorem MemcpyBits.bytesNat_copy (B : MemcpyBits) (n : Nat) (bytes : List Nat) :
    (bytesNat (B.copy n bytes) : Int) = bytesNat bytes % 256 ^ n := by
  rw [B.copy_eq, Lib.bytesNat_copy]
  norm_cast

/-! ## The cases that compute first -/

/-- **A result that is computed is right where the left side has no more bytes than a
`cur_max_signint`, or the result needs none.** -/
theorem storeResult_stores {h : DsHeap} {l : DsvLoc} {x : DataStateVal} (hx : h.get? l = some x)
    {n : Nat} {c z : Int} (hc : c % 256 ^ A.retBytes = z % 256 ^ A.retBytes) :
    Stores (storeResult A h l n c) (spelled n (l, z)) ↔ FitsBytes A.retBytes n z := by
  unfold storeResult
  rw [storeInt_stores hx (A.mem.length_copy ..), A.mem.bytesNat_copy, bytesNat_spell, hc]
  exact fitsBytes_iff

theorem computeAt_extended {r1 r2 : DsvLoc} {x y : Int} {raw1 raw2 : Nat} {v1 v2 : List Nat}
    (h1 : IntOperand A T h r1 x raw1 v1) (h2 : IntOperand A T h r2 y raw2 v2)
    (flag : ComputeFlag) : ∃ b1 b2, bitsInt b1 = x ∧ bitsInt b2 = y ∧
      dsvComputeAt A (dsvExtend A (dsvExtend A h r1) r2) flag r1 r2 = A.compute flag b1 b2 := by
  obtain ⟨hr1, hr2⟩ := extend_two (A := A) h1.get h2.get rfl rfl
  refine ⟨(extendBytes (A.ext raw1) v1, (A.ext raw1).signed),
    (extendBytes (A.ext raw2) v2, (A.ext raw2).signed), h1.read, h2.read, ?_⟩
  unfold dsvComputeAt
  rw [hr1, hr2]
  rfl

/-- What is computed before anything is written. -/
theorem computed_stores (hA : A.Computes) {l r1 r2 : DsvLoc} {x y : Int} {raw1 raw2 : Nat}
    {v1 v2 : List Nat} (hl : h.get? l = some v) (hv : v.kind = none)
    (h1 : IntOperand A T h r1 x raw1 v1) (h2 : IntOperand A T h r2 y raw2 v2)
    {flag : ComputeFlag} {op : Int → Int → Option Int}
    (hop : ∀ z, op x y = some z → flag.onInts x y = some z) (n : Nat) :
    Stores (match dsvComputeAt A (dsvExtend A (dsvExtend A h r1) r2) flag r1 r2 with
      | none => some (.err (dsvExtend A (dsvExtend A h r1) r2))
      | some c => storeResult A (dsvExtend A (dsvExtend A h r1) r2) l n c)
      (((op x y).map (l, ·)).bind (spelled n)) ↔
    ∀ z, op x y = some z → FitsBytes A.retBytes n z := by
  obtain ⟨b1, b2, rfl, rfl, hat⟩ := computeAt_extended h1 h2 flag
  cases hz : op (bitsInt b1) (bitsInt b2) with
  | none => exact iff_of_true trivial fun _ hno => by cases hno
  | some z =>
    obtain ⟨c, hcompute, hc⟩ := hA.operator flag b1 b2 z (hop z hz)
    obtain ⟨y, hy, -, -⟩ := extend_two_raw (A := A) hl h1.get h2.get hv rfl rfl
    rw [hat, hcompute]
    refine (storeResult_stores hy hc).trans ⟨fun hreach z' heq => ?_, fun hall => hall z rfl⟩
    cases heq
    exact hreach

section Cases

variable (A T) (st : AssignStmt) (a : AssignArgs) (h : DsHeap)

/-- The left side has no more bytes than a `cur_max_signint`, or the result needs none. -/
def ResultMet (lx : Option (DsvLoc × Int)) : Prop :=
  ∀ l z, lx = some (l, z) → FitsBytes A.retBytes st.lhsBytes z

end Cases

/-- The bytes of a comparison. -/
theorem bytesNat_truth (b : Bool) {n : Nat} (hpos : 0 < n) :
    (bytesNat ((if b then 1 else 0) :: List.replicate (n - 1) 0) : Int) =
      (if b then 1 else 0) % 256 ^ n := by
  have hpow : (256 : Int) ≤ 256 ^ n := by
    calc (256 : Int) = 256 ^ 1 := (pow_one _).symm
      _ ≤ 256 ^ n := pow_le_pow_right₀ (by decide) hpos
  have hzeros := bytesNat_append_zeros [if b then 1 else 0] (n - 1)
  rw [List.singleton_append] at hzeros
  rw [hzeros]
  cases b with
  | true =>
    have hone : bytesNat [1] = 1 := rfl
    simp only [if_true, hone, Int.natCast_one]
    exact (Int.emod_eq_of_lt (by decide) (by omega)).symm
  | false => exact (Int.zero_emod _).symm

theorem caseCompare_stores (hA : A.Computes) (st : AssignStmt) {a : AssignArgs}
    (hp : Plain A T a h) (flag : CompareFlag) :
    Stores (caseCompare A st a h flag) (compareMeans T st a h flag) := by
  unfold caseCompare compareMeans intOperands findInt
  cases hl : dsvArgFind h a.larg .intCst with
  | none => exact stores_err h _
  | some l =>
    cases hr1 : dsvArgFind h a.rarg1 .intCst with
    | none => exact stores_err h _
    | some r1 =>
      cases hr2 : dsvArgFind h a.rarg2 .intCst with
      | none => exact stores_err h _
      | some r2 =>
        obtain ⟨raw, vl, hv⟩ := dsvArgFind_int hl
        obtain ⟨x, raw1, v1, h1⟩ := intOperand_first hp hr1
        obtain ⟨y, raw2, v2, h2⟩ := intOperand_second hp hr2
        obtain ⟨b1, b2, rfl, rfl, hat⟩ := computeAt_extended h1 h2 .compare
        obtain ⟨w, hw, -, -⟩ := extend_two_raw (A := A) hv h1.get h2.get rfl rfl rfl
        dsimp only
        rw [hat, hA.compare, h1.value, h2.value]
        dsimp only [Option.bind_some, Option.map_some]
        rw [flag.holds_sign]
        by_cases hpos : 0 < st.lhsBytes
        · refine (storeInt_stores hw ?_).mpr (bytesNat_truth _ hpos)
          rw [List.length_cons, List.length_replicate]
          omega
        · rw [spelled_zero hpos]
          trivial

/-- The arithmetic cases and the shifts. -/
theorem caseBinary_stores (hA : A.Computes) (st : AssignStmt) {a : AssignArgs}
    {find : DsHeap → List DsvLoc → Option DsvLoc}
    (hplace : ∀ l, find h a.larg = some l → ∃ v, h.get? l = some v ∧ v.kind = none)
    (hfind : ∀ r1 r2 x y, find h a.rarg1 = some r1 → find h a.rarg2 = some r2 →
      intAt T h r1 = some x → intAt T h r2 = some y →
      (∃ raw v1, IntOperand A T h r1 x raw v1) ∧ ∃ raw v1, IntOperand A T h r2 y raw v1)
    {flag : ComputeFlag} {op : Int → Int → Option Int}
    (hop : ∀ x y z, op x y = some z → flag.onInts x y = some z) :
    Stores (caseBinary A st a h find flag)
      ((intOperands T a h find op).bind (spelled st.lhsBytes)) ↔
    ResultMet A st (intOperands T a h find op) := by
  unfold caseBinary intOperands
  cases hl : find h a.larg with
  | none => exact iff_of_true (stores_err h _) fun _ _ hno => by cases hno
  | some l =>
    cases hr1 : find h a.rarg1 with
    | none => exact iff_of_true (stores_err h _) fun _ _ hno => by cases hno
    | some r1 =>
      cases hr2 : find h a.rarg2 with
      | none => exact iff_of_true (stores_err h _) fun _ _ hno => by cases hno
      | some r2 =>
        dsimp only
        cases hx : intAt T h r1 with
        | none => exact iff_of_true trivial fun _ _ hno => by cases hno
        | some x =>
          cases hy : intAt T h r2 with
          | none => exact iff_of_true trivial fun _ _ hno => by cases hno
          | some y =>
            obtain ⟨v, hv, hkind⟩ := hplace l hl
            obtain ⟨⟨raw1, v1, h1⟩, raw2, v2, h2⟩ := hfind r1 r2 x y hr1 hr2 hx hy
            rw [Option.bind_some, Option.bind_some]
            refine (computed_stores hA hv hkind h1 h2 (hop x y) st.lhsBytes).trans ?_
            unfold ResultMet
            constructor
            · intro hall l' z heq
              obtain ⟨z', hz', heq⟩ := Option.map_eq_some_iff.mp heq
              cases heq
              exact hall z hz'
            · exact fun hall z hz => hall l z (by rw [hz]; rfl)

theorem caseShift_stores (hA : A.Computes) (st : AssignStmt) {a : AssignArgs}
    (hp : Plain A T a h) (left : Bool) :
    Stores (caseBinary A st a h (fun h arg => dsvArgFind h arg .intCst)
      (if left then .shl else .shr)) ((shiftedInt T a h left).bind (spelled st.lhsBytes)) ↔
    ResultMet A st (shiftedInt T a h left) := by
  refine caseBinary_stores hA st (fun l hl => ?_) (fun r1 r2 x y hr1 hr2 hx hy => ?_)
    fun x y z hz => shiftInts_onInts hz
  · obtain ⟨raw, v1, hv⟩ := dsvArgFind_int hl
    exact ⟨_, hv, rfl⟩
  · obtain ⟨x', raw1, v1, h1⟩ := intOperand_first hp hr1
    obtain ⟨y', raw2, v2, h2⟩ := intOperand_second hp hr2
    cases h1.value.symm.trans hx
    cases h2.value.symm.trans hy
    exact ⟨⟨raw1, v1, h1⟩, raw2, v2, h2⟩

theorem dsvArgFirst_kind {arg : List DsvLoc} (ht : dsvArgFirstIntOrReal h arg = some t) :
    ∃ v, h.get? t = some v ∧ v.kind = none := by
  obtain hint | ⟨-, hreal⟩ := Option.or_eq_some_iff.mp ht
  · obtain ⟨raw, v1, hv⟩ := dsvArgFind_int hint
    exact ⟨_, hv, rfl⟩
  · obtain ⟨v, hv, htype⟩ := dsvArgFind_spec hreal
    refine ⟨v, hv, DataStateVal.kind_of_type ?_⟩
    rw [htype]
    exact DsvType.noConfusion

theorem dsvArgFirst_int {arg : List DsvLoc} (ht : dsvArgFirstIntOrReal h arg = some t) {raw : Nat}
    {v1 : List Nat} (hv : h.get? t = some (.sec1 raw .intCst v1)) :
    dsvArgFind h arg .intCst = some t := by
  obtain hint | ⟨-, hreal⟩ := Option.or_eq_some_iff.mp ht
  · exact hint
  · obtain ⟨v', hv', htype⟩ := dsvArgFind_spec hreal
    cases hv.symm.trans hv'
    cases htype

/-- Something of which there is a number is an integer. -/
theorem int_of_intAt {x : Int} (ht : intAt T h t = some x) :
    ∃ raw v1, h.get? t = some (.sec1 raw .intCst v1) ∧ (T.node raw).value v1 = x := by
  obtain ⟨v, hv, hx⟩ := Option.bind_eq_some_iff.mp ht
  cases v with
  | sec1 raw type v1 =>
    cases type with
    | intCst =>
      cases hx
      exact ⟨raw, v1, hv, rfl⟩
    | realCst => cases hx
  | _ => cases hx

theorem caseArith_stores (hA : A.Computes) (st : AssignStmt) {a : AssignArgs}
    (hp : Plain A T a h) (code : BinaryCode) :
    Stores (caseBinary A st a h dsvArgFirstIntOrReal code.flag)
      ((arithInts T a h code).bind (spelled st.lhsBytes)) ↔
    ResultMet A st (arithInts T a h code) := by
  refine caseBinary_stores hA st (fun l hl => dsvArgFirst_kind hl)
    (fun r1 r2 x y hr1 hr2 hx hy => ?_) fun x y z hz => code.flag_onInts hz
  obtain ⟨raw1, v1, h1, rfl⟩ := int_of_intAt hx
  obtain ⟨raw2, v2, h2, rfl⟩ := int_of_intAt hy
  exact ⟨⟨raw1, v1, intOperand_of_find hp (Or.inl (dsvArgFirst_int hr1 h1)) h1⟩,
    raw2, v2, intOperand_of_find hp (Or.inr (dsvArgFirst_int hr2 h2)) h2⟩

/-! ## Pointers -/

/-- What fits an `s32`. -/
def FitsS32 (x : Int) : Prop := -2 ^ 31 ≤ x ∧ x < 2 ^ 31

theorem s32_fits (x : Int) : FitsS32 (s32 x) := by
  have hlow := Int.le_bmod (x := x) (m := 2 ^ 32) (by decide)
  have hhigh := Int.bmod_lt (x := x) (m := 2 ^ 32) (by decide)
  unfold FitsS32 s32
  omega

theorem s32_of_fits {x : Int} (hx : FitsS32 x) : s32 x = x := by
  obtain ⟨hlow, hhigh⟩ := hx
  unfold s32
  rw [Int.bmod_def]
  split
  · omega
  · omega

/-- An address is moved by bytes. -/
def DataStateValRef.plus (A : AssignEnv) (v2 : DataStateValRef) (bytes : List Nat) :
    DataStateValRef :=
  { v2 with offset := s32 (v2.offset + A.mem.toU64 bytes * BITS_PER_UNIT) }

/-- The count of an addition, in the low 64 bits. -/
theorem toU64_extend (A : AssignEnv) (raw : Nat) (v1 : List Nat) :
    (A.mem.toU64 (extendBytes (A.ext raw) v1) : Int) =
      A.read raw v1 % 256 ^ v1.length % 2 ^ 64 := by
  rw [A.mem.toU64_eq, ← bytesNat_extend]
  norm_cast

/-- What an addition asks: the offset that is meant has to fit an `s32`, and the sign of a count in
    less than 4 bytes is lost. -/
def PlusFits (v2 : DataStateValRef) (bytes : List Nat) (n : Int) : Prop :=
  FitsS32 (v2.movedBy n).offset ∧ (4 ≤ bytes.length ∨ 0 ≤ n)

theorem plus_eq_iff {v2 : DataStateValRef} {raw : Nat} {v1 : List Nat} :
    v2.plus A (extendBytes (A.ext raw) v1) = v2.movedBy (A.read raw v1) ↔
      PlusFits v2 v1 (A.read raw v1) := by
  have hidx := toU64_extend A raw v1
  obtain ⟨hlow, hhigh⟩ := read_range A raw v1
  unfold PlusFits DataStateValRef.plus DataStateValRef.movedBy
  generalize A.read raw v1 = n at *
  generalize (A.mem.toU64 (extendBytes (A.ext raw) v1) : Int) = idx at *
  have hoff : ({ v2 with offset := s32 (v2.offset + idx * BITS_PER_UNIT) } : DataStateValRef) =
      { v2 with offset := (v2.offset + n * BITS_PER_UNIT).bmod (2 ^ 64 * BITS_PER_UNIT) } ↔
      s32 (v2.offset + idx * BITS_PER_UNIT) =
        (v2.offset + n * BITS_PER_UNIT).bmod (2 ^ 64 * BITS_PER_UNIT) :=
    ⟨congrArg DataStateValRef.offset, fun heq => by rw [heq]⟩
  rw [hoff]
  have hbmod := Int.dvd_bmod_sub_self (x := v2.offset + n * BITS_PER_UNIT)
    (m := 2 ^ 64 * BITS_PER_UNIT)
  generalize (v2.offset + n * BITS_PER_UNIT).bmod (2 ^ 64 * BITS_PER_UNIT) = meant at *
  have hunit : (BITS_PER_UNIT : Int) = 8 := rfl
  have hspan : ((2 ^ 64 * BITS_PER_UNIT : Nat) : Int) = 2 ^ 67 := rfl
  rw [hspan] at hbmod
  rw [hunit] at hbmod ⊢
  constructor
  · intro heq
    have hdvd := s32_dvd (v2.offset + idx * 8)
    refine ⟨heq ▸ s32_fits _, ?_⟩
    rw [heq] at hdvd
    by_contra hno
    obtain ⟨hshort, hneg⟩ := not_or.mp hno
    -- a short count without its sign is another number
    have hlen : v1.length = 0 ∨ v1.length = 1 ∨ v1.length = 2 ∨ v1.length = 3 := by omega
    rcases hlen with hlen | hlen | hlen | hlen <;> rw [hlen] at hidx hlow hhigh <;> omega
  · rintro ⟨hfits, hcount⟩
    refine (s32_of_dvd ?_).trans (s32_of_fits hfits)
    have hsame : (2 : Int) ^ 29 ∣ idx - n := by
      rcases hcount with hlen | hpos
      · obtain ⟨k, hk⟩ := Nat.exists_eq_add_of_le hlen
        have hpow : (256 : Int) ^ v1.length = 2 ^ 32 * 256 ^ k := by
          rw [hk, pow_add]
          rfl
        have hmod := Int.emod_emod_of_dvd n (Dvd.intro _ hpow.symm)
        omega
      · rw [Int.emod_eq_of_lt hpos hhigh] at hidx
        omega
    omega

/-- The pointer and the place of a `POINTER_PLUS_EXPR`. -/
theorem dsvArgFind_pointer {h : DsHeap} {arg : List DsvLoc} {t : DsvLoc}
    (ht : (dsvArgFind h arg .addr).or (dsvArgFind h arg .intCst) = some t) :
    (∃ raw v2, h.get? t = some (.sec2 raw .addr v2)) ∨
      ∃ raw v1, h.get? t = some (.sec1 raw .intCst v1) := by
  obtain haddr | ⟨-, hint⟩ := Option.or_eq_some_iff.mp ht
  · obtain ⟨v, hv, htype⟩ := dsvArgFind_spec haddr
    obtain ⟨raw, v2, rfl⟩ := eq_addr htype
    exact Or.inl ⟨raw, v2, hv⟩
  · exact Or.inr (dsvArgFind_int hint)

theorem dsvArgFind_pointer_kind {arg : List DsvLoc}
    (ht : (dsvArgFind h arg .addr).or (dsvArgFind h arg .intCst) = some t) :
    ∃ v, h.get? t = some v ∧ v.kind = none := by
  obtain ⟨raw, v2, hv⟩ | ⟨raw, v1, hv⟩ := dsvArgFind_pointer ht
  · exact ⟨_, hv, rfl⟩
  · exact ⟨_, hv, rfl⟩

section Pointers

variable (T) (a : AssignArgs) (h : DsHeap)

/-- An address stays in an `s32`; a null pointer is not moved, as far as the left side holds. -/
def PointerPlusMet : Prop :=
  ∀ l r1 r2 n, plusOperands T a h = some (l, r1, r2, n) →
    match h.get? r1, h.get? r2 with
    | some (.sec2 _ .addr v2), some (.sec1 _ .intCst bytes) => PlusFits v2 bytes n
    | some (.sec1 _ .intCst v1), _ => bytesNat v1 = 0 → 256 ^ v1.length ∣ n
    | _, _ => True

/-- The difference is zero, as far as the left side holds it. -/
def PointerDiffMet (st : AssignStmt) : Prop :=
  ∀ l k, diffBytes a h = some (l, k) → 256 ^ st.lhsBytes ∣ k

end Pointers

/-- An address that is set keeps what it was before, and the type. -/
theorem storeRef_stores {h' : DsHeap} {l : DsvLoc} {x : DataStateVal} (hx : h'.get? l = some x)
    (type : Sec2) (v2 w2 : DataStateValRef) (hself : ¬ (type = .ref ∧ v2.ds.map dsVal = some l)) :
    Stores (storeRef h' l type v2) (some (l, fun w => ∃ raw, w = .sec2 raw type w2)) ↔
      v2 = w2 := by
  have halloc : (h'.set l (x.alloc (.sec2 type))).get? l =
      some (.sec2 x.raw type ⟨none, 0, 0⟩) := get?_set hx _
  unfold storeRef dsvAllocData dsVrefHoldSetv
  simp only [hx, Option.map_some, halloc, hself, if_false, copyRes]
  rw [stores_ok, get?_set halloc]
  constructor
  · rintro ⟨w, hw, raw, rfl⟩
    cases hw
    rfl
  · rintro rfl
    exact ⟨_, rfl, x.raw, rfl⟩

theorem bytesNat_zeros (n : Nat) : bytesNat (List.replicate n 0) = 0 :=
  (bytesNat_append_zeros [] n).trans rfl

/-- A place that is cleared is right for a number that is zero in its bytes. -/
theorem allocInt_stores {h' : DsHeap} {l : DsvLoc} {x : DataStateVal} (hx : h'.get? l = some x)
    (n : Nat) {z : Int} : Stores ((allocInt h' l n).map fun h => .ok h (some l))
      (spelled n (l, z)) ↔ 256 ^ n ∣ z := by
  by_cases hpos : 0 < n
  · rw [allocInt_eq hx hpos, Option.map_some, spelled_pos hpos,
      stores_spelled (get?_set hx _), bytesNat_zeros, and_iff_right (List.length_replicate ..),
      Int.dvd_iff_emod_eq_zero]
    exact eq_comm
  · obtain rfl : n = 0 := by omega
    rw [spelled_zero hpos, pow_zero]
    exact iff_of_true trivial (one_dvd _)

theorem value_zero {t : IntType} {v1 : List Nat} (hzero : bytesNat v1 = 0) : t.value v1 = 0 := by
  unfold IntType.value bytesInt
  rw [hzero]
  unfold wrap
  split
  · exact Int.zero_bmod
  · exact Int.zero_emod _

/-- An address that is moved in place, or stored at another one. -/
theorem plusAddr_stores {h' : DsHeap} {l r1 : DsvLoc} {x : DataStateVal} {raw : Nat}
    {v2 w2 m2 : DataStateValRef} (hx : h'.get? l = some x)
    (hr1 : h'.get? r1 = some (.sec2 raw .addr v2)) :
    Stores (if l = r1 then some (.ok (h'.set l (.sec2 raw .addr w2)) (some l))
      else storeRef h' l .addr w2) (some (l, fun w => ∃ raw, w = .sec2 raw .addr m2)) ↔
    w2 = m2 := by
  by_cases heq : l = r1
  · subst heq
    rw [if_pos rfl, stores_ok, get?_set hr1]
    constructor
    · rintro ⟨w, hw, raw, rfl⟩
      cases hw
      rfl
    · rintro rfl
      exact ⟨_, rfl, raw, rfl⟩
  · rw [if_neg heq]
    exact storeRef_stores hx .addr _ _ fun hself => Sec2.noConfusion hself.1

/-- A null pointer stays one; another integer is refused. -/
theorem plusNull_stores {h' : DsHeap} {l : DsvLoc} {x : DataStateVal} (hx : h'.get? l = some x)
    {t : IntType} {p p' : List Nat} (hlen : p'.length = p.length)
    (hzero : bytesNat p' = 0 ↔ bytesNat p = 0) (n : Int) :
    Stores (if bytesNat p' ≠ 0 then some (.err h')
      else (allocInt h' l p'.length).map fun h => .ok h (some l))
      (spelled p.length (l, t.value p + n)) ↔ (bytesNat p = 0 → 256 ^ p.length ∣ n) := by
  by_cases hz : bytesNat p = 0
  · rw [if_neg (not_not_intro (hzero.mpr hz)), hlen, value_zero hz, Int.zero_add,
      allocInt_stores hx]
    exact ⟨fun hdvd _ => hdvd, fun hall => hall hz⟩
  · rw [if_pos fun hno => hz (hzero.mp hno)]
    exact iff_of_true (stores_err _ _) fun hno => absurd hno hz

theorem casePointerPlus_stores {a : AssignArgs} (hp : Plain A T a h) :
    Stores (casePointerPlus A a h) (pointerPlusMeans T a h) ↔ PointerPlusMet T a h := by
  unfold casePointerPlus pointerPlusMeans PointerPlusMet plusOperands
  cases h2 : dsvArgFind h a.rarg2 .intCst with
  | none => exact iff_of_true (stores_err h _) fun _ _ _ _ hno => by cases hno
  | some r2 =>
    obtain ⟨n, raw2, v1, hr2⟩ := intOperand_second hp h2
    have hbytes : (dsvExtend A h r2).get? r2 =
        some (.sec1 raw2 .intCst (extendBytes (A.ext raw2) v1)) := dsvExtend_get hr2.get
    have hat : bytesAt (dsvExtend A h r2) r2 = some (extendBytes (A.ext raw2) v1) := by
      unfold bytesAt
      rw [hbytes]
      rfl
    simp only [dsvArgFind_congr (dsvExtend_types (A := A) hr2.get), hat]
    cases h1 : (dsvArgFind h a.rarg1 .addr).or (dsvArgFind h a.rarg1 .intCst) with
    | none => exact iff_of_true (stores_err _ _) fun _ _ _ _ hno => by cases hno
    | some r1 =>
      cases hl : (dsvArgFind h a.larg .addr).or (dsvArgFind h a.larg .intCst) with
      | none => exact iff_of_true (stores_err _ _) fun _ _ _ _ hno => by cases hno
      | some l =>
        obtain ⟨v, hv, hkind⟩ := dsvArgFind_pointer_kind hl
        obtain ⟨x, hx, -, -⟩ := dsvExtend_raw (A := A) hr2.get hv rfl hkind
        dsimp only
        rw [hr2.value, Option.map_some, Option.bind_some]
        obtain ⟨raw1, v2, hr1⟩ | ⟨raw1, p, hr1⟩ := dsvArgFind_pointer h1
        · -- an address, which the extension of the count does not touch
          have hne : r2 ≠ r1 := fun heq => by
            rw [← heq] at hr1
            cases hr2.get.symm.trans hr1
          have hr1' := dsvExtend_ne (A := A) hr2.get hr1 rfl rfl hne
          simp only [hr1', hr1]
          refine (plusAddr_stores hx hr1').trans ?_
          rw [← hr2.read]
          refine plus_eq_iff.trans ⟨fun hfits l' r1' r2' n' heq => ?_, fun hall => ?_⟩
          · cases heq
            rw [hr1, hr2.get]
            exact hfits
          · have hone := hall l r1 r2 _ rfl
            rw [hr1, hr2.get] at hone
            exact hone
        · -- a null pointer, which may be the count
          have hnull : ∃ p', (dsvExtend A h r2).get? r1 = some (.sec1 raw1 .intCst p') ∧
              p'.length = p.length ∧ (bytesNat p' = 0 ↔ bytesNat p = 0) := by
            by_cases hne : r2 = r1
            · subst hne
              cases hr2.get.symm.trans hr1
              exact ⟨_, hbytes, length_extendBytes .., extendBytes_eq_zero ..⟩
            · exact ⟨p, dsvExtend_ne hr2.get hr1 rfl rfl hne, rfl, Iff.rfl⟩
          obtain ⟨p', hr1', hlen, hzero⟩ := hnull
          simp only [hr1', hr1]
          refine (plusNull_stores hx hlen hzero n).trans
            ⟨fun hone l' r1' r2' n' heq => ?_, fun hall => ?_⟩
          · cases heq
            rw [hr1]
            exact hone
          · have hone := hall l r1 r2 n rfl
            rw [hr1] at hone
            exact hone

/-- A number and 8 of it agree modulo a power of 256 where that divides it. -/
theorem dvd_of_seven {n : Nat} {k : Int} : (256 : Int) ^ n ∣ k * 8 - k ↔ 256 ^ n ∣ k := by
  have hgcd : Int.gcd (256 ^ n) 7 = 1 := by
    rw [Int.gcd, Int.natAbs_pow]
    exact Nat.Coprime.pow_left n (by decide)
  have hsub : k * 8 - k = 7 * k := by omega
  rw [hsub]
  exact ⟨fun hk => Int.dvd_of_dvd_mul_right_of_gcd_one hk hgcd, fun hk => hk.mul_left 7⟩

/-- Numbers of bits and of bytes are the same in the left side exactly where it is to be zero. -/
theorem diff_eq_iff (k : Int) (n : Nat) :
    s32 (k * 8) % 256 ^ 8 % 256 ^ n = k % 256 ^ n ↔ 256 ^ n ∣ k := by
  have hs := s32_dvd (k * 8)
  have hzero : 2 ^ 32 ∣ k → s32 (k * 8) = 0 := by
    intro hk
    have hfits : FitsS32 (s32 (k * 8)) := s32_fits _
    unfold FitsS32 at hfits
    omega
  generalize s32 (k * 8) = s at *
  by_cases hn : n ≤ 4
  · have hlow : (256 : Int) ^ n ∣ 2 ^ 32 := pow_dvd_pow (256 : Int) hn
    have hmod : s % 256 ^ 8 % 256 ^ n = k * 8 % 256 ^ n := by
      rw [Int.emod_emod_of_dvd s (pow_dvd_pow (256 : Int) (by omega : n ≤ 8))]
      exact Int.emod_eq_emod_iff_emod_sub_eq_zero.mpr (Int.emod_eq_zero_of_dvd (hlow.trans hs))
    rw [hmod, Int.emod_eq_emod_iff_emod_sub_eq_zero, ← Int.dvd_iff_emod_eq_zero]
    exact dvd_of_seven
  · have hhigh : (2 : Int) ^ 32 ∣ 256 ^ n := pow_dvd_pow (256 : Int) (by omega : 4 ≤ n)
    have hbytes : (2 : Int) ^ 32 ∣ 256 ^ 8 := pow_dvd_pow (256 : Int) (by decide : 4 ≤ 8)
    generalize (256 : Int) ^ n = m at *
    generalize (256 : Int) ^ 8 = word at *
    constructor
    · intro heq
      have hk32 : s % 2 ^ 32 = k % 2 ^ 32 := by
        rw [← Int.emod_emod_of_dvd k hhigh, ← heq, Int.emod_emod_of_dvd _ hhigh,
          Int.emod_emod_of_dvd s hbytes]
      have hsub : (2 : Int) ^ 32 ∣ s - k :=
        Int.dvd_of_emod_eq_zero (Int.emod_eq_emod_iff_emod_sub_eq_zero.mp hk32)
      have height : (256 : Int) ^ 4 ∣ k * 8 - k := by
        have hdiff := Int.dvd_sub hsub hs
        rwa [show s - k - (s - k * 8) = k * 8 - k by omega] at hdiff
      rw [hzero (dvd_of_seven.mp height), Int.zero_emod, Int.zero_emod] at heq
      exact Int.dvd_of_emod_eq_zero heq.symm
    · intro hk
      rw [hzero (hhigh.trans hk), Int.zero_emod, Int.zero_emod]
      exact (Int.emod_eq_zero_of_dvd hk).symm

theorem casePointerDiff_stores (st : AssignStmt) (a : AssignArgs) (h : DsHeap) :
    Stores (casePointerDiff A st a h) ((diffBytes a h).bind (spelled st.lhsBytes)) ↔
      PointerDiffMet a h st := by
  unfold casePointerDiff PointerDiffMet diffBytes
  cases hl : dsvArgFind h a.larg .intCst with
  | none => exact iff_of_true (stores_err h _) fun _ _ hno => by cases hno
  | some l =>
    cases h1 : dsvArgFind h a.rarg1 .addr with
    | none => exact iff_of_true (stores_err h _) fun _ _ hno => by cases hno
    | some r1 =>
      cases h2 : dsvArgFind h a.rarg2 .addr with
      | none => exact iff_of_true (stores_err h _) fun _ _ hno => by cases hno
      | some r2 =>
        obtain ⟨raw, x, hx⟩ := dsvArgFind_int hl
        obtain ⟨v, hv, htype⟩ := dsvArgFind_spec h1
        obtain ⟨w, hw, htype'⟩ := dsvArgFind_spec h2
        obtain ⟨raw1, v2, rfl⟩ := eq_addr htype
        obtain ⟨raw2, w2, rfl⟩ := eq_addr htype'
        simp only [hv, hw]
        by_cases hds : v2.ds = w2.ds
        · rw [if_neg fun hno => hno hds]
          by_cases hdvd : (BITS_PER_UNIT : Int) ∣ v2.offset - w2.offset
          · obtain ⟨k, hk⟩ := hdvd
            have hbytes : v2.offset - w2.offset = k * 8 := hk.trans (Int.mul_comm ..)
            have hdiv : (v2.offset - w2.offset) / (BITS_PER_UNIT : Int) = k := by
              rw [hk]
              exact Int.mul_ediv_cancel_left k (by decide)
            rw [if_pos ⟨hds, Dvd.intro _ hk.symm⟩, Option.bind_some,
              storeInt_stores hx (A.mem.length_copy ..), A.mem.bytesNat_copy, bytesNat_spell,
              hdiv, hbytes, diff_eq_iff]
            constructor
            · intro hk' l' k' heq
              cases heq
              exact hk'
            · exact fun hall => hall l k rfl
          · rw [if_neg fun hboth => hdvd hboth.2]
            exact iff_of_true trivial fun _ _ hno => by cases hno
        · rw [if_pos hds]
          exact iff_of_true (stores_err h _) fun _ _ hno => by
            rw [if_neg fun hboth => hds hboth.1] at hno
            cases hno

/-! ## The cases that clear the place first -/

section Late

variable (A T) (st : AssignStmt) (a : AssignArgs) (h : DsHeap)

/-- The complement of an operand at the place itself is that of zero. -/
def BitNotMet : Prop :=
  ∀ l r x, bitNotOperand T a h = some (l, r, x) →
    if l = r then
      256 ^ st.lhsBytes ∣ if st.lhsBytes ≤ A.retBytes then x else x + 256 ^ A.retBytes
    else FitsBytes A.retBytes st.lhsBytes (-x - 1)

/-- A number of which `m` bytes are copied to `n` bytes: at the place itself it is zero there. -/
def LateMet (l r : DsvLoc) (m n : Nat) (x : Int) : Prop :=
  if l = r then 256 ^ n ∣ x else FitsBytes m n x

/-- The smaller or the greater operand has the size of the left side, and is copied late. -/
def MinMaxMet (isMin : Bool) : Prop :=
  0 < st.lhsBytes → ∀ l r x, minMaxOperand T a h isMin = some (l, r, x) →
    ∀ raw v1, h.get? r = some (.sec1 raw .intCst v1) → A.typeBytes raw = st.lhsBytes ∧
      LateMet l r (min st.lhsBytes v1.length) st.lhsBytes x

end Late

/-- The complement of zero, in a `cur_max_signint`, is that of a number. -/
theorem not_zero_iff (m n : Nat) (x : Int) :
    (-0 - 1) % 256 ^ m % 256 ^ n = (-x - 1) % 256 ^ n ↔
      256 ^ n ∣ if n ≤ m then x else x + 256 ^ m := by
  have hpos : (0 : Int) < 256 ^ m := by positivity
  by_cases hle : n ≤ m
  · rw [if_pos hle, Int.emod_emod_of_dvd _ (pow_dvd_pow 256 hle),
      Int.emod_eq_emod_iff_emod_sub_eq_zero, ← Int.dvd_iff_emod_eq_zero]
    have hsub : -0 - 1 - (-x - 1) = x := by omega
    rw [hsub]
  · have hall : (-0 - 1 : Int) % 256 ^ m = 256 ^ m - 1 := by
      rw [← Int.add_emod_right, Int.emod_eq_of_lt (by omega) (by omega)]
      omega
    rw [if_neg hle, hall, Int.emod_eq_emod_iff_emod_sub_eq_zero, ← Int.dvd_iff_emod_eq_zero]
    have hsub : 256 ^ m - 1 - (-x - 1) = x + 256 ^ m := by omega
    rw [hsub]

/-- The complement is taken of what is in the place after it was cleared. -/
theorem bitNot_cleared {h' : DsHeap} {l r : DsvLoc} {x : DataStateVal} {raw : Nat}
    {bytes : List Nat} (hx : h'.get? l = some x) (hkind : x.kind = none)
    (hr : h'.get? r = some (.sec1 raw .intCst bytes)) (n : Nat) :
    dsvComputeAt A (h'.set l (.sec1 x.raw .intCst (List.replicate n 0))) .bitNot r l =
      some (-(if l = r then 0 else bitsInt (bytes, (A.ext raw).signed)) - 1) := by
  have halloc := get?_set hx (.sec1 x.raw .intCst (List.replicate n 0))
  unfold dsvComputeAt
  by_cases heq : l = r
  · subst heq
    have hzero : ∀ signed width, wrap signed width ((0 : Nat) : Int) = 0 := by
      intro signed width
      unfold wrap
      split
      · exact Int.zero_bmod
      · exact Int.zero_emod _
    rw [halloc]
    dsimp only [dsvCompute]
    rw [A.compute_not, bytesNat_zeros, hzero, if_pos rfl]
  · rw [halloc, get?_set_ne hx hr hkind rfl heq]
    dsimp only [dsvCompute]
    rw [A.compute_not, if_neg heq]
    rfl

/-- **The place is cleared before the operand is complemented.** -/
theorem caseBitNot_stores (st : AssignStmt) {a : AssignArgs} (hp : Plain A T a h) :
    Stores (caseBitNot A st a h) (bitNotMeans T st a h) ↔ BitNotMet A T st a h := by
  unfold caseBitNot bitNotMeans BitNotMet bitNotOperand
  cases hl : dsvArgFind h a.larg .intCst with
  | none => exact iff_of_true (stores_err h _) fun _ _ _ hno => by cases hno
  | some l =>
    cases h1 : dsvArgFind h a.rarg1 .intCst with
    | none => exact iff_of_true (stores_err h _) fun _ _ _ hno => by cases hno
    | some r =>
      obtain ⟨rawl, vl, hv⟩ := dsvArgFind_int hl
      obtain ⟨x, raw, v1, hr⟩ := intOperand_first hp h1
      obtain ⟨w, hw, -, hkind⟩ := dsvExtend_raw (A := A) hr.get hv rfl rfl
      have hr' : (dsvExtend A h r).get? r =
          some (.sec1 raw .intCst (extendBytes (A.ext raw) v1)) := dsvExtend_get hr.get
      dsimp only
      rw [hr.value, Option.map_some, Option.bind_some]
      dsimp only
      have hone : (∀ l' r' x', some (l, r, x) = some (l', r', x') →
          if l' = r' then
            256 ^ st.lhsBytes ∣ if st.lhsBytes ≤ A.retBytes then x' else x' + 256 ^ A.retBytes
          else FitsBytes A.retBytes st.lhsBytes (-x' - 1)) ↔
          if l = r then
            256 ^ st.lhsBytes ∣ if st.lhsBytes ≤ A.retBytes then x else x + 256 ^ A.retBytes
          else FitsBytes A.retBytes st.lhsBytes (-x - 1) :=
        ⟨fun hall => hall l r x rfl, fun hone l' r' x' heq => by cases heq; exact hone⟩
      rw [hone]
      by_cases hpos : 0 < st.lhsBytes
      · have halloc := get?_set hw (.sec1 w.raw .intCst (List.replicate st.lhsBytes 0))
        rw [allocInt_eq hw hpos]
        dsimp only
        rw [bitNot_cleared hw hkind hr']
        dsimp only
        rw [writeBytes_eq halloc, Option.map_some, spelled_pos hpos,
          stores_spelled (get?_set halloc _), and_iff_right (A.mem.length_copy ..),
          A.mem.bytesNat_copy, bytesNat_spell]
        by_cases heq : l = r
        · rw [if_pos heq, if_pos heq]
          exact not_zero_iff A.retBytes st.lhsBytes x
        · have hread : bitsInt (extendBytes (A.ext raw) v1, (A.ext raw).signed) = x := hr.read
          rw [if_neg heq, if_neg heq, hread]
          exact fitsBytes_iff
      · have hzero : st.lhsBytes = 0 := by omega
        rw [spelled_zero hpos, hzero]
        refine iff_of_true trivial ?_
        split
        · exact one_dvd _
        · exact Or.inl (Nat.zero_le _)

/-- An integer that is copied to a place that is cleared first. -/
theorem copyLate_result {h' : DsHeap} {l r : DsvLoc} {x : DataStateVal} {raw : Nat}
    {bytes : List Nat} {z : Int} (hx : h'.get? l = some x) (hkind : x.kind = none)
    (hr : h'.get? r = some (.sec1 raw .intCst bytes))
    (hz : (bytesNat bytes : Int) = z % 256 ^ bytes.length) {n : Nat} (hpos : 0 < n)
    (bits : List Nat → Nat) :
    ∃ h'' raw' bytes', copyLate A h' l r n bits = some (.ok h'' (some l)) ∧
      h''.get? l = some (.sec1 raw' .intCst bytes') ∧ bytes'.length = n ∧
      ((bytesNat bytes' : Int) = z % 256 ^ n ↔
        LateMet l r (min (bits bytes / BITS_PER_UNIT) bytes.length) n z) := by
  have halloc := get?_set hx (.sec1 x.raw .intCst (List.replicate n 0))
  unfold copyLate LateMet
  rw [allocInt_eq hx hpos]
  dsimp only
  by_cases heq : l = r
  · subst heq
    have hat : bytesAt (h'.set l (.sec1 x.raw .intCst (List.replicate n 0))) l =
        some (List.replicate n 0) := by
      unfold bytesAt
      rw [halloc]
      rfl
    have hzero : ∀ k, (bytesNat (A.mem.copy n ((List.replicate n 0).take k)) : Int) = 0 := by
      intro k
      rw [A.mem.bytesNat_copy, List.take_replicate, bytesNat_zeros]
      exact Int.zero_emod _
    rw [hat]
    dsimp only
    rw [writeBytes_eq halloc, if_pos rfl, Int.dvd_iff_emod_eq_zero]
    refine ⟨_, _, _, rfl, get?_set halloc _, A.mem.length_copy .., ?_⟩
    rw [hzero]
    exact eq_comm
  · have hat : bytesAt (h'.set l (.sec1 x.raw .intCst (List.replicate n 0))) r = some bytes := by
      unfold bytesAt
      rw [get?_set_ne hx hr hkind rfl heq]
      rfl
    rw [hat]
    dsimp only
    rw [writeBytes_eq halloc, if_neg heq, ← fitsBytes_iff]
    refine ⟨_, _, _, rfl, get?_set halloc _, A.mem.length_copy .., ?_⟩
    have htake : (bytesNat (bytes.take (bits bytes / BITS_PER_UNIT)) : Int) =
        z % 256 ^ min (bits bytes / BITS_PER_UNIT) bytes.length := by
      have hlen : bytes.take (bits bytes / BITS_PER_UNIT) =
          bytes.take (min (bits bytes / BITS_PER_UNIT) bytes.length) := by
        rw [← List.take_take, List.take_length]
      rw [hlen, bytesNat_take]
      push_cast
      rw [hz]
      exact Int.emod_emod_of_dvd z (pow_dvd_pow 256 (Nat.min_le_right ..))
    rw [A.mem.bytesNat_copy, htake]

theorem late_stores {h' : DsHeap} {l r : DsvLoc} {x : DataStateVal} {raw : Nat}
    {bytes : List Nat} {z : Int} (hx : h'.get? l = some x) (hkind : x.kind = none)
    (hr : h'.get? r = some (.sec1 raw .intCst bytes))
    (hz : (bytesNat bytes : Int) = z % 256 ^ bytes.length) (n : Nat) (bits : List Nat → Nat) :
    Stores (copyLate A h' l r n bits) (spelled n (l, z)) ↔
      LateMet l r (min (bits bytes / BITS_PER_UNIT) bytes.length) n z := by
  by_cases hpos : 0 < n
  · obtain ⟨h'', raw', bytes', hres, hget, hlen, hiff⟩ :=
      copyLate_result (A := A) hx hkind hr hz hpos bits
    rw [hres, spelled_pos hpos, stores_spelled hget, and_iff_right hlen]
    exact hiff
  · obtain rfl : n = 0 := by omega
    rw [spelled_zero hpos]
    unfold LateMet
    refine iff_of_true trivial ?_
    split
    · exact one_dvd _
    · exact Or.inl (Nat.zero_le _)

/-- The bytes of an operand that `dsv_extend` has been at. -/
theorem IntOperand.extended {x : Int} {raw : Nat} {v1 : List Nat}
    (hr : IntOperand A T h t x raw v1) :
    (bytesNat (extendBytes (A.ext raw) v1) : Int) =
      x % 256 ^ (extendBytes (A.ext raw) v1).length := by
  rw [bytesNat_extend, hr.read, length_extendBytes]

/-- A copy of as many bytes as the type of the operand has, where `n` bytes are wanted. -/
theorem lateType_stores {h' : DsHeap} {l r : DsvLoc} {x : DataStateVal} {raw raw' n : Nat}
    {bytes : List Nat} {z : Int} (hx : h'.get? l = some x) (hkind : x.kind = none)
    (hr : h'.get? r = some (.sec1 raw' .intCst bytes))
    (hz : (bytesNat bytes : Int) = z % 256 ^ bytes.length) (hpos : 0 < n) :
    Stores (copyLate A h' l r (A.typeBytes raw) fun _ => A.typeBytes raw * BITS_PER_UNIT)
        (spelled n (l, z)) ↔
      A.typeBytes raw = n ∧ LateMet l r (min n bytes.length) n z := by
  by_cases hbytes : A.typeBytes raw = n
  · rw [and_iff_right hbytes, hbytes, late_stores hx hkind hr hz, Nat.mul_div_cancel _ (by decide)]
  · refine iff_of_false (fun hstores => hbytes ?_) fun hno => hbytes hno.1
    rw [spelled_pos hpos] at hstores
    by_cases hzero : 0 < A.typeBytes raw
    · obtain ⟨h'', raw'', bytes', hres, hget, hlen, -⟩ :=
        copyLate_result (A := A) hx hkind hr hz hzero fun _ => A.typeBytes raw * BITS_PER_UNIT
      rw [hres, stores_spelled hget] at hstores
      exact hlen.symm.trans hstores.1
    · unfold copyLate at hstores
      rw [allocInt_zero _ l hzero] at hstores
      exact absurd hstores not_stores_none

/-- The operand that is taken, and its number. -/
theorem minMax_taken {r1 r2 : DsvLoc} {x y : Int} {raw1 raw2 : Nat} {v1 v2 : List Nat}
    (hr1 : IntOperand A T h r1 x raw1 v1) (hr2 : IntOperand A T h r2 y raw2 v2) (isMin : Bool) :
    ∃ raw v,
      IntOperand A T h (if decide (y ≤ x) = isMin then r2 else r1)
        (if isMin then min x y else max x y) raw v ∧
      (dsvExtend A (dsvExtend A h r1) r2).get? (if decide (y ≤ x) = isMin then r2 else r1) =
        some (.sec1 raw .intCst (extendBytes (A.ext raw) v)) := by
  obtain ⟨hr1', hr2'⟩ := extend_two (A := A) hr1.get hr2.get rfl rfl
  by_cases hyx : y ≤ x
  · cases isMin with
    | true => simpa [hyx] using ⟨raw2, v2, hr2, hr2'⟩
    | false => simpa [hyx] using ⟨raw1, v1, hr1, hr1'⟩
  · have hxy : x ≤ y := by omega
    cases isMin with
    | true => simpa [hyx, hxy] using ⟨raw1, v1, hr1, hr1'⟩
    | false => simpa [hyx, hxy] using ⟨raw2, v2, hr2, hr2'⟩

theorem caseMinMax_stores (hA : A.Computes) (st : AssignStmt) {a : AssignArgs}
    (hp : Plain A T a h) (isMin : Bool) :
    Stores (caseMinMax A a h isMin) (minMaxMeans T st a h isMin) ↔
      MinMaxMet A T st a h isMin := by
  unfold caseMinMax minMaxMeans MinMaxMet minMaxOperand
  cases hl : dsvArgFind h a.larg .intCst with
  | none => exact iff_of_true (stores_err h _) fun _ _ _ _ hno => by cases hno
  | some l =>
    cases h1 : dsvArgFind h a.rarg1 .intCst with
    | none => exact iff_of_true (stores_err h _) fun _ _ _ _ hno => by cases hno
    | some r1 =>
      cases h2 : dsvArgFind h a.rarg2 .intCst with
      | none => exact iff_of_true (stores_err h _) fun _ _ _ _ hno => by cases hno
      | some r2 =>
        obtain ⟨rawl, vl, hv⟩ := dsvArgFind_int hl
        obtain ⟨x, raw1, v1, hr1⟩ := intOperand_first hp h1
        obtain ⟨y, raw2, v2, hr2⟩ := intOperand_second hp h2
        obtain ⟨w, hw, -, hkind⟩ := extend_two_raw (A := A) hv hr1.get hr2.get rfl rfl rfl
        obtain ⟨b1, b2, hx, hy, hat⟩ := computeAt_extended hr1 hr2 .compare
        dsimp only
        rw [hat, hA.compare, hx, hy, hr1.value, hr2.value]
        dsimp only [Option.bind_some, Option.map_some]
        rw [CompareFlag.holds_sign]
        have hge : CompareFlag.ge.onInts x y = decide (y ≤ x) := rfl
        rw [hge]
        obtain ⟨raw, v, hr, hr'⟩ := minMax_taken hr1 hr2 isMin
        generalize (if decide (y ≤ x) = isMin then r2 else r1) = r at *
        generalize (if isMin then min x y else max x y) = z at *
        rw [hr']
        dsimp only [DataStateVal.raw]
        by_cases hpos : 0 < st.lhsBytes
        · rw [lateType_stores hw hkind hr' hr.extended hpos, length_extendBytes]
          constructor
          · intro hone _ l' r' z' heq raw' v' hr''
            cases heq
            cases hr.get.symm.trans hr''
            exact hone
          · exact fun hall => hall hpos l r z rfl raw v hr.get
        · rw [spelled_zero hpos]
          exact iff_of_true trivial fun hno => absurd hno hpos

end Srcinv.Analysis
