import Mathlib.Data.Int.Bitwise
import Srcinv.Analysis.AssignPlaces

/-!
# What an assignment means

The operators of gimple on numbers and on addresses, whatever the decoder does for them.  An integer
operand is the number that its bytes hold in the type of its node, an address moves by bytes, and a
pointer that is an integer is moved like one.

* `Meaning`, `Stores` — a place and what is to be said of the value at it; a result says so, or is
  a refusal.
* `AssignEnv.Computes` — `clib_compute_bits` computes the operators.
* `Plain` — `dsv_extend` leaves the numbers of the operands.
-/

namespace Srcinv.Analysis

open Srcinv.Lib DsHeap

/-! ## Operators -/

/-- The operators of two integers, where they are defined. -/
def BinaryCode.onInts : BinaryCode → Int → Int → Option Int
  | bitIor, x, y => some (x.lor y)
  | bitXor, x, y => some (x.xor y)
  | bitAnd, x, y => some (x.land y)
  | plus, x, y => some (x + y)
  | minus, x, y => some (x - y)
  | mult, x, y => some (x * y)
  -- a quotient that is no integer is none of an integer type
  | rdiv, x, y => if y ≠ 0 ∧ y ∣ x then some (x / y) else none
  | truncDiv, x, y => if y ≠ 0 then some (x.tdiv y) else none
  | truncMod, x, y => if y ≠ 0 then some (x.tmod y) else none

/-- A shift by less than the width of what is shifted; one to the right is arithmetic. -/
def shiftInts (left : Bool) (width : Nat) (x y : Int) : Option Int :=
  if 0 ≤ y ∧ y < width then some (if left then x * 2 ^ y.toNat else x / 2 ^ y.toNat) else none

def CompareFlag.onInts : CompareFlag → Int → Int → Bool
  | eq, x, y => x = y
  | ne, x, y => x ≠ y
  | ge, x, y => x ≥ y
  | gt, x, y => x > y
  | le, x, y => x ≤ y
  | lt, x, y => x < y

/-- What the flags of `clib_compute_bits` are for. -/
def ComputeFlag.onInts : ComputeFlag → Int → Int → Option Int
  | compare, x, y => some (x - y).sign
  | bitNot, x, _ => some (-x - 1)
  | bitIor, x, y => some (x.lor y)
  | bitXor, x, y => some (x.xor y)
  | bitAnd, x, y => some (x.land y)
  | add, x, y => some (x + y)
  | sub, x, y => some (x - y)
  | mul, x, y => some (x * y)
  | div, x, y => if y ≠ 0 then some (x.tdiv y) else none
  | mod, x, y => if y ≠ 0 then some (x.tmod y) else none
  | shl, x, y => if 0 ≤ y then some (x * 2 ^ y.toNat) else none
  | shr, x, y => if 0 ≤ y then some (x / 2 ^ y.toNat) else none

/-- The number of all bits. -/
def bitsInt (bits : List Nat × Bool) : Int := wrap bits.2 (8 * bits.1.length) (bytesNat bits.1)

/-- What `clib_compute_bits` is documented to do: the result is a `cur_max_signint`. -/
structure AssignEnv.Computes (A : AssignEnv) : Prop where
  compare : ∀ l r, A.compute .compare l r = some (bitsInt l - bitsInt r).sign
  operator : ∀ flag l r z, flag.onInts (bitsInt l) (bitsInt r) = some z →
    ∃ z', A.compute flag l r = some z' ∧ z' % 256 ^ A.retBytes = z % 256 ^ A.retBytes

theorem CompareFlag.holds_sign (flag : CompareFlag) (x y : Int) :
    flag.holds (x - y).sign = flag.onInts x y := by
  have hneg := Int.sign_eq_neg_one_iff_neg (a := x - y)
  have hpos := Int.sign_eq_one_iff_pos (a := x - y)
  have hzero := Int.sign_eq_zero_iff_zero (a := x - y)
  cases flag with
  | eq => exact decide_eq_decide.mpr (by omega)
  | ne => exact decide_eq_decide.mpr (by omega)
  | ge => exact decide_eq_decide.mpr (by omega)
  | gt => exact decide_eq_decide.mpr (by omega)
  | le => exact decide_eq_decide.mpr (by omega)
  | lt => exact decide_eq_decide.mpr (by omega)

/-- A code is the flag that the decoder takes for it. -/
theorem BinaryCode.flag_onInts {code : BinaryCode} {x y z : Int} (h : code.onInts x y = some z) :
    code.flag.onInts x y = some z := by
  cases code with
  | rdiv =>
    obtain ⟨⟨hne, hdvd⟩, hz⟩ := Option.ite_none_right_eq_some.mp h
    exact (if_pos hne).trans (by rw [Int.tdiv_eq_ediv_of_dvd hdvd]; exact hz)
  | _ => exact h

theorem shiftInts_onInts {left : Bool} {width : Nat} {x y z : Int}
    (h : shiftInts left width x y = some z) :
    (if left then ComputeFlag.shl else .shr).onInts x y = some z := by
  obtain ⟨⟨hpos, -⟩, hz⟩ := Option.ite_none_right_eq_some.mp h
  cases left with
  | true => exact (if_pos hpos).trans hz
  | false => exact (if_pos hpos).trans hz

/-! ## Values -/

/-- The integer types that gcc knows: of each node that a value was made for, and of the left
    side. -/
structure AssignTypes where
  node : Nat → IntType
  lhs : IntType

section Meaning

variable (A : AssignEnv) (T : AssignTypes) (st : AssignStmt) (a : AssignArgs) (h : DsHeap)

/-- A place, and what is to be said of the value at it; none where the operator is not defined. -/
abbrev Meaning := Option (DsvLoc × (DataStateVal → Prop))

/-- The number of an integer. -/
def intOf : DataStateVal → Option Int
  | .sec1 raw .intCst v1 => some ((T.node raw).value v1)
  | _ => none

def intAt (t : DsvLoc) : Option Int := (h.get? t).bind (intOf T)

/-- An integer of `n` bytes that spell a number. -/
def SpellsInt (n : Nat) (x : Int) (w : DataStateVal) : Prop :=
  ∃ raw v1, w = .sec1 raw .intCst v1 ∧ v1.length = n ∧ (bytesNat v1 : Int) = x % 256 ^ n

/-- A number for a place; there is none of no bytes. -/
def spelled (n : Nat) (lx : DsvLoc × Int) : Meaning :=
  if 0 < n then some (lx.1, SpellsInt n lx.2) else none

/-- The place and the operands of an operator on two integers. -/
def intOperands (find : DsHeap → List DsvLoc → Option DsvLoc) (op : Int → Int → Option Int) :
    Option (DsvLoc × Int) :=
  match find h a.larg, find h a.rarg1, find h a.rarg2 with
  | some l, some r1, some r2 => (intAt T h r1).bind fun x => (intAt T h r2).bind fun y =>
    (op x y).map (l, ·)
  | _, _, _ => none

/-- The width of the first operand. -/
def shiftWidth : Nat :=
  match (dsvArgFind h a.rarg1 .intCst).bind h.get? with
  | some v => (T.node v.raw).prec
  | none => 0

def findInt (h : DsHeap) (arg : List DsvLoc) : Option DsvLoc := dsvArgFind h arg .intCst

/-- A comparison is 0 or 1. -/
def compareMeans (flag : CompareFlag) : Meaning :=
  (intOperands T a h findInt fun x y => some (if flag.onInts x y then 1 else 0)).bind
    (spelled st.lhsBytes)

/-- The place, the place of the operand and its number. -/
def bitNotOperand : Option (DsvLoc × DsvLoc × Int) :=
  match dsvArgFind h a.larg .intCst, dsvArgFind h a.rarg1 .intCst with
  | some l, some r1 => (intAt T h r1).map (l, r1, ·)
  | _, _ => none

def bitNotMeans : Meaning :=
  (bitNotOperand T a h).bind fun (l, _, x) => spelled st.lhsBytes (l, -x - 1)

def arithInts (code : BinaryCode) : Option (DsvLoc × Int) :=
  intOperands T a h dsvArgFirstIntOrReal code.onInts

def shiftedInt (left : Bool) : Option (DsvLoc × Int) :=
  intOperands T a h findInt (shiftInts left (shiftWidth T a h))

/-- An address is moved by a count of bytes, and wraps around at the end of the memory. -/
def DataStateValRef.movedBy (v2 : DataStateValRef) (n : Int) : DataStateValRef :=
  { v2 with offset := (v2.offset + n * BITS_PER_UNIT).bmod (2 ^ 64 * BITS_PER_UNIT) }

/-- The place, the place of the pointer, and the places and the number of the count. -/
def plusOperands : Option (DsvLoc × DsvLoc × DsvLoc × Int) :=
  match dsvArgFind h a.rarg2 .intCst,
    (dsvArgFind h a.rarg1 .addr).or (dsvArgFind h a.rarg1 .intCst),
    (dsvArgFind h a.larg .addr).or (dsvArgFind h a.larg .intCst) with
  | some r2, some r1, some l => (intAt T h r2).map (l, r1, r2, ·)
  | _, _, _ => none

def pointerPlusMeans : Meaning :=
  (plusOperands T a h).bind fun (l, r1, _, n) =>
    match h.get? r1 with
    | some (.sec2 _ .addr v2) => some (l, fun w => ∃ raw, w = .sec2 raw .addr (v2.movedBy n))
    | some (.sec1 raw .intCst v1) => spelled v1.length (l, (T.node raw).value v1 + n)
    | _ => none

/-- The place and the difference in bytes of two addresses in one data state. -/
def diffBytes : Option (DsvLoc × Int) :=
  match dsvArgFind h a.larg .intCst, dsvArgFind h a.rarg1 .addr, dsvArgFind h a.rarg2 .addr with
  | some l, some r1, some r2 =>
    match h.get? r1, h.get? r2 with
    | some (.sec2 _ _ v2), some (.sec2 _ _ w2) =>
      if v2.ds = w2.ds ∧ (BITS_PER_UNIT : Int) ∣ v2.offset - w2.offset then
        some (l, (v2.offset - w2.offset) / BITS_PER_UNIT)
      else none
    | _, _ => none
  | _, _, _ => none

/-- The place, the place of the operand that is the smaller or the greater one, and its number.  Of
    two that are equal it is the second of a minimum and the first of a maximum. -/
def minMaxOperand (isMin : Bool) : Option (DsvLoc × DsvLoc × Int) :=
  match dsvArgFind h a.larg .intCst, dsvArgFind h a.rarg1 .intCst,
    dsvArgFind h a.rarg2 .intCst with
  | some l, some r1, some r2 => (intAt T h r1).bind fun x => (intAt T h r2).map fun y =>
    (l, if decide (y ≤ x) = isMin then r2 else r1, if isMin then min x y else max x y)
  | _, _, _ => none

def minMaxMeans (isMin : Bool) : Meaning :=
  (minMaxOperand T a h isMin).bind fun (l, _, x) => spelled st.lhsBytes (l, x)

/-- A copy is the value; of an integer, one of the same number. -/
def SameValue (v w : DataStateVal) : Prop :=
  match v with
  | .sec1 raw .intCst v1 => ∃ v1', w = .sec1 raw .intCst v1' ∧ v1'.length = v1.length ∧
    (T.node raw).value v1' = (T.node raw).value v1
  | v => w = v

/-- A conversion: an integer is taken modulo the range of the type of the left side. -/
def Converted (v w : DataStateVal) : Prop :=
  match intOf T v with
  | some x => intOf T w = some (wrap T.lhs.signed T.lhs.prec x)
  | none => w = v

/-! ## What the operands have to be -/

/-- The number that an operator reads after `dsv_extend`. -/
def AssignEnv.read (raw : Nat) (v1 : List Nat) : Int :=
  bitsInt (extendBytes (A.ext raw) v1, (A.ext raw).signed)

/-- `dsv_extend` leaves in all bytes of the integer operands the numbers that they have in their
    types. -/
def Plain : Prop :=
  ∀ t, dsvArgFind h a.rarg1 .intCst = some t ∨ dsvArgFind h a.rarg2 .intCst = some t →
    ∀ raw v1, h.get? t = some (.sec1 raw .intCst v1) → A.read raw v1 = (T.node raw).value v1

end Meaning

/-! ## Results -/

/-- A result is a refusal, or has at the place what is said of the value. -/
def Stores (res : Option AssignRes) : Meaning → Prop
  | some (l, P) => (∃ h, res = some (.err h)) ∨
    ∃ h w, res = some (.ok h (some l)) ∧ h.get? l = some w ∧ P w
  | none => True

theorem stores_err (h : DsHeap) (m : Meaning) : Stores (some (.err h)) m := by
  cases m with
  | none => trivial
  | some lP => exact Or.inl ⟨h, rfl⟩

theorem stores_ok {h : DsHeap} {l : DsvLoc} {P : DataStateVal → Prop} :
    Stores (some (.ok h (some l))) (some (l, P)) ↔ ∃ w, h.get? l = some w ∧ P w := by
  constructor
  · rintro (⟨h', heq⟩ | ⟨h', w, heq, hget, hP⟩)
    · cases heq
    · cases heq
      exact ⟨w, hget, hP⟩
  · exact fun ⟨w, hget, hP⟩ => Or.inr ⟨h, w, rfl, hget, hP⟩

theorem not_stores_none {l : DsvLoc} {P : DataStateVal → Prop} : ¬ Stores none (some (l, P)) := by
  rintro (⟨h, heq⟩ | ⟨h, w, heq, -⟩)
  · cases heq
  · cases heq

theorem not_stores_nothing {h : DsHeap} {l : DsvLoc} {P : DataStateVal → Prop} :
    ¬ Stores (some (.ok h none)) (some (l, P)) := by
  rintro (⟨h', heq⟩ | ⟨h', w, heq, -⟩)
  · cases heq
  · cases heq

end Srcinv.Analysis
