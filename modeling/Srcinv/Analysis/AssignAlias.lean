import Srcinv.Analysis.AssignLoops

/-!
# Assignments to a place that an operand is at

The value of the left side has to be the operator of the operands as they were before.  A case that
clears the place of the left side and reads an operand afterwards reads zeros where both are one
place, and a copy between a value and a part of it reads what it has freed or written already.  A
difference of addresses is stored in bits, and a conversion converts nothing.

* `assignMeans` — the place and the value, taken from the operands as they were.
* `assign_exact` — the cases store that value, but for the operands that `AssignMet` rules out.
-/

namespace Srcinv.Analysis

open Srcinv.Lib DsHeap

variable {A : AssignEnv} {T : AssignTypes} {h : DsHeap} {t u : DsvLoc} {v w : DataStateVal}

/-! ## The switch -/

section Switch

variable (A T) (st : AssignStmt) (a : AssignArgs) (h : DsHeap)

/-- **The operator of the operands**, as they are in the heap: the place that it is for, and the
    value. -/
def assignMeans : Meaning :=
  match st.code with
  | .compare flag => compareMeans T st a h flag
  | .bitNot => bitNotMeans T st a h
  | .arith code => (arithInts T a h code).bind (spelled st.lhsBytes)
  | .shift left => (shiftedInt T a h left).bind (spelled st.lhsBytes)
  | .pointerPlus => pointerPlusMeans T a h
  | .pointerDiff => (diffBytes a h).bind (spelled st.lhsBytes)
  | .memRef => memRefMeans T st a h
  | .componentRef => componentRefMeans T st a h
  | .minMax isMin => minMaxMeans T st a h isMin
  | .decl => loopMeans (SameValue T) a.larg a.rarg1 [.constructor, .addr, .ref, .intCst] h
  | .integerCst => loopMeans (SameValue T) a.larg a.rarg1 [.intCst] h
  | .stringCst => loopMeans (SameValue T) a.larg a.rarg1 [.constructor] h
  | .addrExpr => addrExprMeans st a h
  | .bitFieldRef => bitFieldRefMeans T a h
  | .constructor => constructorMeans st a h
  | .nop => loopMeans (Converted T) a.larg a.rarg1 [.constructor, .addr, .ref, .intCst] h
  | .other => none

/-- **What the cases ask of their operands.**  One that is read after its place is cleared is zero
    as far as it is read, a copy is clear, a constructor that is assigned has elements; results fit
    a `cur_max_signint`, offsets an `s32`, and a converted number the type of the left side; and
    the difference of two addresses is zero. -/
def AssignMet : Prop :=
  st.tooMany = false →
    match st.code with
    | .bitNot => BitNotMet A T st a h
    | .arith code => ResultMet A st (arithInts T a h code)
    | .shift left => ResultMet A st (shiftedInt T a h left)
    | .pointerPlus => PointerPlusMet T a h
    | .pointerDiff => PointerDiffMet a h st
    | .memRef => MemRefMet T st a h
    | .componentRef => ComponentRefMet A T st a h
    | .minMax isMin => MinMaxMet A T st a h isMin
    | .decl => PlacesMet a.larg a.rarg1 [.constructor, .addr, .ref, .intCst] h
    | .stringCst => PlacesMet a.larg a.rarg1 [.constructor] h
    | .addrExpr => AddrExprMet st a h
    | .constructor => ConstructorMet st a h
    | .nop => PlacesMet a.larg a.rarg1 [.constructor, .addr, .ref, .intCst] h ∧
        ConvertMet T a.larg a.rarg1 [.constructor, .addr, .ref, .intCst] h
    | _ => True

end Switch

theorem placesMet_ints {larg rarg : List DsvLoc} : PlacesMet larg rarg [.intCst] h := by
  intro l r hfirst
  unfold firstCopy at hfirst
  split at hfirst
  · rename_i l' r' hl hr
    split at hfirst
    · cases hfirst
      obtain ⟨raw, v, hv⟩ := dsvArgFind_int hl
      obtain ⟨raw', w, hw⟩ := dsvArgFind_int hr
      exact copyClear_of_kind hv hw rfl rfl
    · cases hfirst
  · cases hfirst

theorem assignCase_stores (hA : A.Computes) (st : AssignStmt) {a : AssignArgs}
    (hp : Plain A T a h) :
    Stores (assignCase A st a h) (assignMeans T st a h) ↔ AssignMet A T st a h := by
  unfold assignCase assignMeans AssignMet
  cases htoo : st.tooMany with
  | true => exact iff_of_true (stores_err h _) fun hno => by cases hno
  | false =>
    rw [if_neg Bool.false_ne_true]
    simp only [forall_const]
    have hall : [DsvType.constructor, .addr, .ref, .intCst].Pairwise
        fun type type' => type = .ref → type' = .intCst := by decide
    cases st.code with
    | compare flag => exact iff_of_true (caseCompare_stores hA st hp flag) trivial
    | bitNot => exact caseBitNot_stores st hp
    | arith code => exact caseArith_stores hA st hp code
    | shift left => exact caseShift_stores hA st hp left
    | pointerPlus => exact casePointerPlus_stores hp
    | pointerDiff => exact casePointerDiff_stores st a h
    | memRef => exact caseMemRef_stores st hp
    | componentRef => exact caseComponentRef_stores st hp
    | minMax isMin => exact caseMinMax_stores hA st hp isMin
    | decl => exact (copyLoop_stores true sameValue_iff hall).trans (loopMet_same hp)
    | integerCst =>
      refine iff_of_true ((copyLoop_stores true sameValue_iff (List.pairwise_singleton ..)).mpr ?_)
        trivial
      exact (loopMet_same hp).mpr placesMet_ints
    | stringCst =>
      exact (copyLoop_stores true sameValue_iff (List.pairwise_singleton ..)).trans
        (loopMet_same hp)
    | addrExpr => exact caseAddrExpr_stores st a h
    | bitFieldRef => exact iff_of_true (caseBitFieldRef_stores hp) trivial
    | constructor => exact caseConstructor_stores st a h
    | nop => exact (copyLoop_stores false converted_iff hall).trans loopMet_converted
    | other => exact iff_of_true (stores_err h _) trivial

section Dec

variable (A T) (st : AssignStmt) (h : DsHeap) (E : DataEnv) (rand : Nat → List Nat → Nat)
  (fuel : Nat)

/-- The value that is stored is the operator of the operands as they were read. -/
def AssignRight : Prop :=
  ∀ h' a, assignArgs st h E rand fuel = some (h', some a) →
    Stores (decAssign A st h E rand fuel) (assignMeans T st a h')

/-- `dsv_extend` is right of the integer operands. -/
def OperandsPlain : Prop :=
  ∀ h' a, assignArgs st h E rand fuel = some (h', some a) → Plain A T a h'

def OperandsMet : Prop :=
  ∀ h' a, assignArgs st h E rand fuel = some (h', some a) → AssignMet A T st a h'

/-- **An assignment of operands that `dsv_extend` is right of stores the operator of them as they
were exactly where they meet what the cases ask.** -/
theorem assign_exact (hA : A.Computes) :
    (OperandsPlain A T st h E rand fuel ∧ OperandsMet A T st h E rand fuel →
      AssignRight A T st h E rand fuel) ∧
    (OperandsPlain A T st h E rand fuel → AssignRight A T st h E rand fuel →
      OperandsMet A T st h E rand fuel) := by
  have hdec : ∀ h' a, assignArgs st h E rand fuel = some (h', some a) → Plain A T a h' →
      (Stores (decAssign A st h E rand fuel) (assignMeans T st a h') ↔ AssignMet A T st a h') := by
    intro h' a hargs hp
    have hcase : decAssign A st h E rand fuel = assignCase A st a h' := by
      unfold decAssign
      rw [hargs]
    rw [hcase]
    exact assignCase_stores hA st hp
  constructor
  · rintro ⟨hplain, hmet⟩ h' a hargs
    exact (hdec h' a hargs (hplain h' a hargs)).mpr (hmet h' a hargs)
  · intro hplain hright h' a hargs
    exact (hdec h' a hargs (hplain h' a hargs)).mp (hright h' a hargs)

end Dec

/-! ## A complement in place -/

/-- The operators on numbers. -/
def plainCompute (flag : ComputeFlag) (l r : List Nat × Bool) : Option Int :=
  flag.onInts (bitsInt l) (bitsInt r)

/-- All nodes are of a type of 32 bits with a sign. -/
def intAssignEnv : AssignEnv where
  mem := .plain
  retBytes := 8
  compute := plainCompute
  compute_not _ _ _ := rfl
  ext _ := ⟨true, 31, 64⟩
  typeBits _ := 32
  typeBytes _ := 4

def intTypes : AssignTypes := ⟨fun _ => ⟨true, 32⟩, ⟨true, 32⟩⟩

theorem intAssignEnv_computes : intAssignEnv.Computes :=
  ⟨fun _ _ => rfl, fun _ _ _ z hz => ⟨z, hz, rfl⟩⟩

/-- Two SSA names are references to the data state of the variable, which is 5. -/
def notHeap : DsHeap
  | 0 => .sec2 0 .ref ⟨some 2, 0, 32⟩
  | 1 => .sec2 1 .ref ⟨some 2, 0, 32⟩
  | _ => .sec1 2 .intCst [5, 0, 0, 0]

/-- `x_2 = x_1 - x_2`, both in one place, stores zero; the places are one. -/
theorem assign_exact_sub : AssignRight intAssignEnv intTypes
    ⟨.arith .minus, 1, 0, some 1, false, 4, none⟩ notHeap (plainEnv .other) (fun _ _ => 0) 2 := by
  refine (assign_exact intAssignEnv intTypes _ _ _ _ _ intAssignEnv_computes).1
    ⟨fun h' a hargs => ?_, fun h' a hargs => ?_⟩
  · cases hargs
    intro t ht raw v1 hv
    have ht : t = dsVal 2 := by
      rcases ht with ht | ht
      · cases ht
        rfl
      · cases ht
        rfl
    subst ht
    cases hv
    decide
  · cases hargs
    intro _ l z _
    exact Or.inl (by decide)

/-- `x_2 = ~x_1` stores the complement of zero. -/
theorem complement_of_cleared_operand :
    ¬ AssignRight intAssignEnv intTypes ⟨.bitNot, 0, 1, none, false, 4, none⟩ notHeap
      (plainEnv .other) (fun _ _ => 0) 2 := by
  intro hright
  have hstores := hright notHeap ⟨[dsVal 2], [dsVal 2], []⟩ rfl
  obtain ⟨h', herr⟩ | ⟨h', w, hres, hget, raw, v1, rfl, -, hnum⟩ := hstores
  · cases herr
  · cases hres
    cases hget
    exact absurd hnum (by decide)

end Srcinv.Analysis
