import Srcinv.Analysis.DsTree

/-!
# Assignments (`__dec_gimple_assign`, `analysis/gcc/c.cc`)

`get_ds_val` gives for each operand, and for the left side, the places of the values that it may
stand for; every case of the switch takes the first of a type that it can work on, and stores into
the place of the left side.  The places may be the same, or parts of one another.

* `assignCase` — the switch; what follows it for an SSA name on the left side is `ssaBack`.
* `decAssign` — the values are read, and the switch is run.

`clib_compute_bits`, the types of the nodes and the sizes that are taken from them are parameters.
A result `none` says that freed memory is read, or that a `BUG_ON` fires.
-/

namespace Srcinv.Analysis

open Srcinv.Lib

/-! ## Values of a type -/

/-- `DSV_TYPE`. -/
inductive DsvType where
  | unk
  | intCst
  | realCst
  | addr
  | ref
  | constructor
  deriving DecidableEq, Repr

def DataStateVal.type : DataStateVal → DsvType
  | unk _ => .unk
  | sec1 _ .intCst _ => .intCst
  | sec1 _ .realCst _ => .realCst
  | sec2 _ .addr _ => .addr
  | sec2 _ .ref _ => .ref
  | sec3 .. => .constructor

/-- `DSVT_CONSTRUCTOR`. -/
def DataStateVal.isConstructor (v : DataStateVal) : Prop := v.type = .constructor

instance (v : DataStateVal) : Decidable v.isConstructor := by
  unfold DataStateVal.isConstructor
  infer_instance

/-- `dsv_arg_find` of the first value of a type. -/
def dsvArgFind (h : DsHeap) (arg : List DsvLoc) (type : DsvType) : Option DsvLoc :=
  arg.find? fun t => (h.get? t).map DataStateVal.type = some type

/-- `dsv_arg_first_int_or_real`. -/
def dsvArgFirstIntOrReal (h : DsHeap) (arg : List DsvLoc) : Option DsvLoc :=
  (dsvArgFind h arg .intCst).or (dsvArgFind h arg .realCst)

/-! ## Integers -/

/-- What `dsv_extend` reads of a node: whether its type has a sign, the place of the sign bit, and
    up to where it is copied. -/
structure ExtendInfo where
  signed : Bool
  msbPos : Nat
  bits : Nat
  deriving DecidableEq, Repr

/-- The bits that `dsv_extend` sets. -/
def ExtendInfo.mask (i : ExtendInfo) : Nat := 2 ^ i.bits - 2 ^ (i.msbPos + 1)

def extendBytes (i : ExtendInfo) (bytes : List Nat) : List Nat :=
  if i.signed ∧ (bytesNat bytes).testBit i.msbPos then
    spell bytes.length (bytesNat bytes ||| i.mask : Nat)
  else bytes

/-- The operators of `clib_compute_bits`. -/
inductive ComputeFlag where
  | compare
  | bitNot
  | bitIor
  | bitXor
  | bitAnd
  | add
  | sub
  | mul
  | div
  | mod
  | shl
  | shr
  deriving DecidableEq, Repr

/-- `extra_flag` of a comparison. -/
inductive CompareFlag where
  | eq
  | ne
  | ge
  | gt
  | le
  | lt
  deriving DecidableEq, Repr

/-- The result of a comparison is -1, 0 or 1. -/
def CompareFlag.holds (x : Int) : CompareFlag → Bool
  | eq => x = 0
  | ne => x ≠ 0
  | ge => x ≠ -1
  | gt => x = 1
  | le => x ≠ 1
  | lt => x = -1

/-- What the decoder has from outside: clib's functions on bits (`compute` is `clib_compute_bits` on
    two numbers with their signs), `sizeof(cur_max_signint)`, and for each node what `dsv_extend`
    reads, `TYPE_SIZE` and `get_type_bytes` of its type. -/
structure AssignEnv where
  mem : MemcpyBits
  retBytes : Nat
  compute : ComputeFlag → List Nat × Bool → List Nat × Bool → Option Int
  compute_not : ∀ bytes signed r, compute .bitNot (bytes, signed) r =
    some (-wrap signed (8 * bytes.length) (bytesNat bytes) - 1)
  ext : Nat → ExtendInfo
  typeBits : Nat → Nat
  typeBytes : Nat → Nat

variable (A : AssignEnv)

/-- `dsv_extend`. -/
def dsvExtend (h : DsHeap) (t : DsvLoc) : DsHeap :=
  match h.get? t with
  | some (.sec1 raw .intCst v1) => h.set t (.sec1 raw .intCst (extendBytes (A.ext raw) v1))
  | _ => h

/-- `dsv_compute` of integers; the sign of a value is that which `dsv_extend` has set. -/
def dsvCompute (flag : ComputeFlag) : DataStateVal → DataStateVal → Option Int
  | .sec1 raw .intCst v1, .sec1 raw' .intCst v1' =>
    A.compute flag (v1, (A.ext raw).signed) (v1', (A.ext raw').signed)
  | _, _ => none

def dsvComputeAt (h : DsHeap) (flag : ComputeFlag) (l r : DsvLoc) : Option Int :=
  match h.get? l, h.get? r with
  | some v, some w => dsvCompute A flag v w
  | _, _ => none

/-- `dsv_alloc_data` of a `DSVT_INT_CST`. -/
def allocInt (h : DsHeap) (t : DsvLoc) (bytes : Nat) : Option DsHeap :=
  if hpos : 0 < bytes then dsvAllocData h t (.sec1 .intCst ⟨bytes, hpos⟩) else none

/-- The bytes of an integer are written. -/
def writeBytes (h : DsHeap) (t : DsvLoc) (bytes : List Nat) : Option DsHeap :=
  match h.get? t with
  | some (.sec1 raw type _) => some (h.set t (.sec1 raw type bytes))
  | _ => none

def storeInt (h : DsHeap) (t : DsvLoc) (n : Nat) (bytes : List Nat) : Option DsHeap :=
  (allocInt h t n).bind fun h => writeBytes h t bytes

/-- The bytes of a `DSVT_INT_CST`. -/
def bytesAt (h : DsHeap) (t : DsvLoc) : Option (List Nat) := (h.get? t).bind DataStateVal.intCst?

/-! ## Copies -/

/-- A constructor `src` that was copied into the part `d` of it at `i :: rest`.  The elements are
    copied in turn, so that the element `i` is copied while `d` has the elements before it only. -/
def copiedInside (d : DataStateVal) : DataStateVal → List Nat → DataStateVal
  | .sec3 raw subtype total v3, i :: rest =>
    .sec3 raw subtype total (v3.modify i fun e =>
      { e with val := e.val.set rest (.sec3 d.raw subtype total (v3.take i)) })
  | s, _ => s

/-- A value is a part of another one. -/
def DsvLoc.Inside (t u : DsvLoc) : Prop := t.ds = u.ds ∧ u.path <+: t.path ∧ t ≠ u

instance (t u : DsvLoc) : Decidable (t.Inside u) := by
  unfold DsvLoc.Inside
  infer_instance

/-- `dsv_copy_data`, also of a constructor into a part of itself.  A part of `dst` is freed with it
    before it is read. -/
def dsvCopyVal (h : DsHeap) (dst src : DsvLoc) : Option (DsHeap × Bool) :=
  match h.get? dst, h.get? src with
  | some d, some s =>
    if dst.Inside src ∧ d.copyable s then
      some (h.set dst (copiedInside d s (dst.path.drop src.path.length)), false)
    else dsvCopyData h dst src
  | _, _ => none

/-! ## The switch -/

/-- The codes with `clib_compute_bits` of two numbers. -/
inductive BinaryCode where
  | bitIor
  | bitXor
  | bitAnd
  | plus
  | minus
  | mult
  | rdiv
  | truncDiv
  | truncMod
  deriving DecidableEq, Repr

def BinaryCode.flag : BinaryCode → ComputeFlag
  | bitIor => .bitIor
  | bitXor => .bitXor
  | bitAnd => .bitAnd
  | plus => .add
  | minus => .sub
  | mult => .mul
  | rdiv => .div
  | truncDiv => .div
  | truncMod => .mod

/-- `rhs_code`; a comparison with its flag, a shift with whether it is to the left, and `decl` for
    `SSA_NAME`, `VAR_DECL` and `PARM_DECL`. -/
inductive AssignCode where
  | compare (flag : CompareFlag)
  | bitNot
  | arith (code : BinaryCode)
  | shift (left : Bool)
  | pointerPlus
  | pointerDiff
  | memRef
  | componentRef
  | minMax (isMin : Bool)
  | decl
  | integerCst
  | stringCst
  | addrExpr
  | bitFieldRef
  | constructor
  | nop
  | other
  deriving DecidableEq, Repr

/-- An assignment: its code, the data states of the left side and two operands (with a third one
    every case fails), the size of the left side, and whether the address of an array goes to a
    pointer (and the size in bits of what that points at). -/
structure AssignStmt where
  code : AssignCode
  lhs : Nat
  rhs1 : Nat
  rhs2 : Option Nat
  rhs3 : Bool
  lhsBytes : Nat
  arrayToPointer : Option Nat
  deriving DecidableEq, Repr

/-- The values found for the left side and two operands. -/
structure AssignArgs where
  larg : List DsvLoc
  rarg1 : List DsvLoc
  rarg2 : List DsvLoc

/-- An assignment fails, or stores at a place. -/
inductive AssignRes where
  | err (h : DsHeap)
  | ok (h : DsHeap) (dst : Option DsvLoc)

/-- The result of a copy. -/
def copyRes (dst : DsvLoc) : Option (DsHeap × Bool) → Option AssignRes
  | none => none
  | some (h, true) => some (.err h)
  | some (h, false) => some (.ok h (some dst))

/-- `dsv_copy_to_arg`. -/
def dsvCopyToArg (h : DsHeap) (src : DsvLoc) : List DsvLoc → Option AssignRes
  | [] => some (.err h)
  | dst :: arg =>
    match dsvCopyVal h dst src with
    | none => none
    | some (h, false) => some (.ok h (some dst))
    | some (h, true) => dsvCopyToArg h src arg

/-- The first type of a list of which both sides have a value. -/
def firstBoth (h : DsHeap) (larg rarg : List DsvLoc) :
    List DsvType → Option (DsvType × DsvLoc × DsvLoc)
  | [] => none
  | type :: types =>
    match dsvArgFind h larg type, dsvArgFind h rarg type with
    | some l, some r => some (type, l, r)
    | _, _ => firstBoth h larg rarg types

/-- The loop over the types that stops at the first copy that succeeds. -/
def copyLoop (extend : Bool) (larg rarg : List DsvLoc) : List DsvType → DsHeap → Option AssignRes
  | [], h => some (.err h)
  | type :: types, h =>
    match dsvArgFind h larg type, dsvArgFind h rarg type with
    | some l, some r =>
      match dsvCopyVal (if extend then dsvExtend A h r else h) l r with
      | none => none
      | some (h, false) => some (.ok h (some l))
      | some (h, true) => copyLoop extend larg rarg types h
    | _, _ => copyLoop extend larg rarg types h

variable (st : AssignStmt) (a : AssignArgs) (h : DsHeap)

/-- The result of `clib_compute_bits` is stored. -/
def storeResult (h : DsHeap) (l : DsvLoc) (n : Nat) (x : Int) : Option AssignRes :=
  (storeInt h l n (A.mem.copy n (spell A.retBytes x))).map fun h => .ok h (some l)

def caseCompare (flag : CompareFlag) : Option AssignRes :=
  match dsvArgFind h a.larg .intCst, dsvArgFind h a.rarg1 .intCst,
    dsvArgFind h a.rarg2 .intCst with
  | some l, some r1, some r2 =>
    let h := dsvExtend A (dsvExtend A h r1) r2
    match dsvComputeAt A h .compare r1 r2 with
    | none => some (.err h)
    | some x =>
      (storeInt h l st.lhsBytes ((if flag.holds x then 1 else 0) ::
        List.replicate (st.lhsBytes - 1) 0)).map fun h => .ok h (some l)
  | _, _, _ => some (.err h)

/-- The left side is cleared before the operand is read ("need to alloc BEFORE dsv_compute()"). -/
def caseBitNot : Option AssignRes :=
  match dsvArgFind h a.larg .intCst, dsvArgFind h a.rarg1 .intCst with
  | some l, some r1 =>
    match allocInt (dsvExtend A h r1) l st.lhsBytes with
    | none => none
    | some h =>
      match dsvComputeAt A h .bitNot r1 l with
      | none => some (.err h)
      | some x =>
        (writeBytes h l (A.mem.copy st.lhsBytes (spell A.retBytes x))).map fun h => .ok h (some l)
  | _, _ => some (.err h)

/-- The arithmetic cases and the shifts; `find` is how they find their values. -/
def caseBinary (find : DsHeap → List DsvLoc → Option DsvLoc) (flag : ComputeFlag) :
    Option AssignRes :=
  match find h a.larg, find h a.rarg1, find h a.rarg2 with
  | some l, some r1, some r2 =>
    let h := dsvExtend A (dsvExtend A h r1) r2
    match dsvComputeAt A h flag r1 r2 with
    | none => some (.err h)
    | some x => storeResult A h l st.lhsBytes x
  | _, _, _ => some (.err h)

/-- `dsv_alloc_data` and `ds_vref_hold_setv`. -/
def storeRef (h : DsHeap) (l : DsvLoc) (type : Sec2) (v2 : DataStateValRef) : Option AssignRes :=
  match dsvAllocData h l (.sec2 type) with
  | none => none
  | some h => copyRes l (dsVrefHoldSetv h l v2.ds v2.offset v2.bits)

/-- An address moves by bytes; a null pointer stays one. -/
def casePointerPlus : Option AssignRes :=
  match dsvArgFind h a.rarg2 .intCst with
  | none => some (.err h)
  | some r2 =>
    let h := dsvExtend A h r2
    match (dsvArgFind h a.rarg1 .addr).or (dsvArgFind h a.rarg1 .intCst),
      (dsvArgFind h a.larg .addr).or (dsvArgFind h a.larg .intCst) with
    | some r1, some l =>
      match h.get? r1, bytesAt h r2 with
      | some (.sec2 raw .addr v2), some bytes =>
        let offset := s32 (v2.offset + A.mem.toU64 bytes * BITS_PER_UNIT)
        if l = r1 then some (.ok (h.set l (.sec2 raw .addr { v2 with offset })) (some l))
        else storeRef h l .addr { v2 with offset }
      | some (.sec1 _ .intCst v1), some _ =>
        if bytesNat v1 ≠ 0 then some (.err h)
        else (allocInt h l v1.length).map fun h => .ok h (some l)
      | _, _ => none
    | _, _ => some (.err h)

/-- The difference of two offsets is one of bits. -/
def casePointerDiff : Option AssignRes :=
  match dsvArgFind h a.larg .intCst, dsvArgFind h a.rarg1 .addr, dsvArgFind h a.rarg2 .addr with
  | some l, some r1, some r2 =>
    match h.get? r1, h.get? r2 with
    | some (.sec2 _ _ v2), some (.sec2 _ _ w2) =>
      if v2.ds ≠ w2.ds then some (.err h)
      else
        (storeInt h l st.lhsBytes
          (A.mem.copy st.lhsBytes (spell 8 (s32 (v2.offset - w2.offset))))).map
          fun h => .ok h (some l)
    | _, _ => none
  | _, _, _ => some (.err h)

/-- An integer is copied to the left side, which is cleared before; `bits` is how much of it. -/
def copyLate (h : DsHeap) (l r : DsvLoc) (n : Nat) (bits : List Nat → Nat) : Option AssignRes :=
  match allocInt h l n with
  | none => none
  | some h =>
    match bytesAt h r with
    | none => none
    | some bytes =>
      (writeBytes h l (A.mem.copy n (bytes.take (bits bytes / BITS_PER_UNIT)))).map fun h =>
        .ok h (some l)

def caseMemRef : Option AssignRes :=
  match firstBoth h a.larg a.rarg1 [.constructor, .addr, .intCst] with
  | none => some (.err h)
  | some (.intCst, l, r1) =>
    copyLate A (dsvExtend A h r1) l r1 st.lhsBytes fun bytes => bytes.length * BITS_PER_UNIT
  | some (_, l, r1) => copyRes l (dsvCopyVal h l r1)

/-- `ARRAY_REF` and `COMPONENT_REF`. -/
def caseComponentRef : Option AssignRes :=
  match firstBoth h a.larg a.rarg1 [.constructor, .addr, .ref, .intCst] with
  | none => some (.err h)
  | some (.constructor, l, r1) => copyRes l (dsvCopyVal h l r1)
  | some (_, l, r1) =>
    match h.get? r1 with
    | some (.sec1 raw _ _) => copyLate A (dsvExtend A h r1) l r1 st.lhsBytes fun _ => A.typeBits raw
    | some (.sec2 _ type v2) =>
      if l = r1 then some (.ok h (some l)) else storeRef h l type v2
    | _ => none

/-- The smaller or the greater operand is copied to the left side, which is cleared before. -/
def caseMinMax (isMin : Bool) : Option AssignRes :=
  match dsvArgFind h a.larg .intCst, dsvArgFind h a.rarg1 .intCst,
    dsvArgFind h a.rarg2 .intCst with
  | some l, some r1, some r2 =>
    let h := dsvExtend A (dsvExtend A h r1) r2
    match dsvComputeAt A h .compare r1 r2 with
    | none => some (.err h)
    | some x =>
      let target := if CompareFlag.ge.holds x = isMin then r2 else r1
      match h.get? target with
      | none => none
      | some v =>
        let bytes := A.typeBytes v.raw
        copyLate A h l target bytes fun _ => bytes * BITS_PER_UNIT
  | _, _, _ => some (.err h)

def caseAddrExpr : Option AssignRes :=
  match dsvArgFind h a.rarg1 .addr with
  | none => some (.err h)
  | some r1 =>
    match st.arrayToPointer with
    | none => dsvCopyToArg h (dsVal st.rhs1) a.larg
    | some bits =>
      match h.get? r1 with
      | some (.sec2 raw type ⟨some ds, offset, _⟩) =>
        if (h ds).type ≠ .constructor then some (.err h)
        else dsvCopyToArg (h.set r1 (.sec2 raw type ⟨some ds, offset, u32 bits⟩)) r1 a.larg
      | _ => none

def caseBitFieldRef : Option AssignRes :=
  match dsvArgFind h a.rarg1 .intCst with
  | none => some (.err h)
  | some r1 => dsvCopyToArg (dsvExtend A h r1) r1 a.larg

/-- Of a constructor without elements nothing is stored. -/
def caseConstructor : Option AssignRes :=
  match h.get? (dsVal st.rhs1) with
  | none => none
  | some v =>
    if v.type = .constructor ∧ v.isUnset = false then dsvCopyToArg h (dsVal st.rhs1) a.larg
    else
      match dsvArgFind h a.rarg1 .constructor with
      | none => some (.err h)
      | some r1 =>
        match h.get? r1 with
        | none => none
        | some w => if w.isUnset then some (.ok h none) else dsvCopyToArg h r1 a.larg

/-- The cases with two operands want no third one, the others no second one. -/
def AssignStmt.tooMany : Bool :=
  st.rhs3 || (st.rhs2.isSome && match st.code with
    | .compare _ => false
    | .arith _ => false
    | .shift _ => false
    | .pointerPlus => false
    | .pointerDiff => false
    | .minMax _ => false
    | _ => true)

/-- The switch of `__dec_gimple_assign`. -/
def assignCase : Option AssignRes :=
  if st.tooMany then some (.err h)
  else
    match st.code with
    | .compare flag => caseCompare A st a h flag
    | .bitNot => caseBitNot A st a h
    | .arith code => caseBinary A st a h dsvArgFirstIntOrReal code.flag
    | .shift left =>
      caseBinary A st a h (fun h arg => dsvArgFind h arg .intCst) (if left then .shl else .shr)
    | .pointerPlus => casePointerPlus A a h
    | .pointerDiff => casePointerDiff A st a h
    | .memRef => caseMemRef A st a h
    | .componentRef => caseComponentRef A st a h
    | .minMax isMin => caseMinMax A a h isMin
    | .decl => copyLoop A true a.larg a.rarg1 [.constructor, .addr, .ref, .intCst] h
    | .integerCst => copyLoop A true a.larg a.rarg1 [.intCst] h
    | .stringCst => copyLoop A true a.larg a.rarg1 [.constructor] h
    | .addrExpr => caseAddrExpr st a h
    | .bitFieldRef => caseBitFieldRef A a h
    | .constructor => caseConstructor st a h
    | .nop => copyLoop A false a.larg a.rarg1 [.constructor, .addr, .ref, .intCst] h
    | .other => some (.err h)

/-! ## The values -/

variable (E : DataEnv) (rand : Nat → List Nat → Nat) (fuel : Nat)

/-- `get_ds_val` of the left side and the operands; each read has its own random values. -/
def assignArgs : Option (DsHeap × Option AssignArgs) :=
  match getDsVal E (rand 0) fuel h (dsVal st.lhs) 0 0 with
  | none => none
  | some (h, none) => some (h, none)
  | some (h, some larg) =>
    match getDsVal E (rand 1) fuel h (dsVal st.rhs1) 0 0 with
    | none => none
    | some (h, none) => some (h, none)
    | some (h, some rarg1) =>
      match st.rhs2 with
      | none => some (h, some ⟨larg, rarg1, []⟩)
      | some ds =>
        (getDsVal E (rand 2) fuel h (dsVal ds) 0 0).map fun (h, rarg2) =>
          (h, rarg2.map fun rarg2 => ⟨larg, rarg1, rarg2⟩)

/-- `__dec_gimple_assign`. -/
def decAssign : Option AssignRes :=
  match assignArgs st h E rand fuel with
  | none => none
  | some (h, none) => some (.err h)
  | some (h, some a) => assignCase A st a h

end Srcinv.Analysis
