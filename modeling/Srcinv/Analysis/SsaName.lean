import Srcinv.Analysis.DataInit

/-!
# SSA names (`analysis/gcc/c.cc`)

All versions of a variable are written through the data state of the variable: `get_ds_via_tree`
lets the state of the name that is written refer to it, the decoder writes what the reference leads
to, and then copies that back over the reference.  A name is read from its own data state.

* `ssaWrite`, `ssaOperand` — `get_ds_via_tree` of an SSA name, to write it and to read it.
* `ssaAssign`, `ssaPhi` — what the decoders of assignments, call results and phis do with it.
* `ssaStep` — the statements of a frame, together with the value that each name was given last.
-/

namespace Srcinv.Analysis

/-! ## Registers -/

namespace DataStateVal

/-- Neither a constructor nor a reference. -/
def isScalar : DataStateVal → Bool
  | sec2 _ .ref _ => false
  | sec3 .. => false
  | _ => true

/-- `dsv_set_raw`. -/
def withRaw (r : Nat) : DataStateVal → DataStateVal
  | unk _ => unk r
  | sec1 _ type v1 => sec1 r type v1
  | sec2 _ type v2 => sec2 r type v2
  | sec3 _ subtype total v3 => sec3 r subtype total v3

/-- The same type and content; the node does not count. -/
def Same (v w : DataStateVal) : Prop := v.withRaw 0 = w.withRaw 0

/-- An address gets the bits of what it is the address of. -/
def withBits (bits : Nat) : DataStateVal → DataStateVal
  | sec2 raw .addr v2 => sec2 raw .addr { v2 with bits := bits }
  | v => v

/-- The types that `dec_gimple_phi` copies, and both values are of one of them. -/
def samePhiType : DataStateVal → DataStateVal → Bool
  | sec1 _ .intCst _, sec1 _ .intCst _ => true
  | sec2 _ type _, sec2 _ type' _ => type = type'
  | sec3 .., sec3 .. => true
  | _, _ => false

end DataStateVal

/-- `dsv_init` of a scalar of this node leaves a scalar: the node has the type of a register. -/
def DataEnv.Register (E : DataEnv) (raw : Nat) : Prop :=
  (E.node raw).ssaOutside = false ∧
    ∀ rand v, v.raw = raw → v.isScalar = true → (initVal E rand v).isScalar = true

/-- What a call may return in a register. -/
def RegVal (E : DataEnv) : Type :=
  { w : DataStateVal // w.isUnset = true → E.Register w.raw }

/-- The cases of `__dec_gimple_assign`. -/
inductive RhsCode where
  | compare
  | bitNot
  | arith
  | shift
  | pointerPlus
  | pointerDiff
  | memRef
  | componentRef
  | minMax
  | decl
  | integerCst
  | stringCst
  | nop
  | addrExpr
  | bitFieldRef
  | constructor
  deriving DecidableEq, Repr

/-- The case sets `lhs_val`; the others write by `dsv_copy_to_arg` and leave it `NULL`. -/
def RhsCode.setsLhsVal : RhsCode → Bool
  | addrExpr => false
  | bitFieldRef => false
  | constructor => false
  | _ => true

/-- The SSA names of a frame: the data state of each, that of its variable, the one that
    `get_ds_via_tree` makes to refer to a variable and drops again, the node that a `VAR_DECL` is
    given when it is looked up, which names are default definitions, and which data states are
    memory that pointers reach.  An argument of a phi that is no SSA name has a name of its own; if
    it is the address of an array and the result a pointer, `elemBits` has for its data state the
    bits of what the result points to. -/
structure SsaNames (E : DataEnv) where
  own : Nat → Nat
  var : Nat → Option Nat
  tmp : Nat
  node : Nat → Nat
  initNode : Nat → Option Nat
  bits : Nat → Nat
  defaultDef : Nat → Bool
  memory : Nat → Bool
  elemBits : Nat → Option Nat
  own_inj : ∀ n m, own n = own m → n = m
  own_ne_var : ∀ n m v, var m = some v → own n ≠ v
  own_ne_tmp : ∀ n, own n ≠ tmp
  var_ne_tmp : ∀ n v, var n = some v → v ≠ tmp
  init_register : ∀ v raw, initNode v = some raw → E.Register raw
  default_var : ∀ n, var n = none → defaultDef n = false
  memory_apart : ∀ ds, memory ds = true → ds ≠ tmp ∧ ∀ n, own n ≠ ds ∧ var n ≠ some ds
  elem_own : ∀ n, (elemBits (own n)).isSome → var n = none
  elem_var : ∀ n v, var n = some v → elemBits v = none

variable {E : DataEnv} (N : SsaNames E) (fuel : Nat)

/-! ## `get_ds_via_tree` -/

/-- A `VAR_DECL` that is looked up gets its initialiser or its declaration as the node. -/
def setInitNode (h : DsHeap) (v : Nat) : DsHeap :=
  match N.initNode v with
  | none => h
  | some raw => h.set (dsVal v) ((h v).withRaw raw)

/-- A local `VAR_DECL` or a `PARM_DECL`: a new state that refers to the variable's. -/
def getDsVar (h : DsHeap) (v : Nat) : Option DsHeap :=
  let h := (setInitNode N h v).set (dsVal N.tmp) (.sec2 (N.node v) .ref ⟨none, 0, 0⟩)
  match dsVrefSetv h (dsVal N.tmp) v 0 (N.bits v) with
  | some (h, false) => some h
  | _ => none

/-- An SSA name of the variable `v`, to write it (`old_ssa_write`). -/
def ssaWrite (h : DsHeap) (n v : Nat) : Option DsHeap := do
  let h ← getDsVar N h v
  let h ← dsvAllocData h (dsVal (N.own n)) (.sec2 .ref)
  match dsVrefSetv h (dsVal (N.own n)) N.tmp 0 (N.bits v) with
  | some (h, false) => some h
  | _ => none

/-- A name on the left side. -/
def ssaDest (h : DsHeap) (n : Nat) : Option DsHeap :=
  match N.var n with
  | none => some h
  | some v => ssaWrite N h n v

/-- `dsv_copy_from_arg`: the first of the values that can be copied. -/
def dsvCopyFromArg (h : DsHeap) (dst : DsvLoc) : List DsvLoc → Option DsHeap
  | [] => none
  | src :: srcs =>
    match dsvCopyData h dst src with
    | none => none
    | some (h', false) => some h'
    | some (h', true) => dsvCopyFromArg h' dst srcs

/-- An SSA name to read it; a default definition starts with the value of its variable. -/
def ssaOperand (rand : List Nat → Nat) (h : DsHeap) (n : Nat) : Option DsHeap :=
  match N.var n with
  | none => some h
  | some v => do
    let h ← getDsVar N h v
    match N.defaultDef n, h (N.own n) with
    | true, .unk _ =>
      match getDsVal E rand fuel h (dsVal N.tmp) 0 0 with
      | some (h, some srcs) => dsvCopyFromArg h (dsVal (N.own n)) srcs
      | _ => none
    | _, _ => some h

/-! ## The decoders -/

/-- `ssa_write` is set: what was written goes back over the reference. -/
def copyBack (copy : DsHeap → DsvLoc → DsvLoc → Option (DsHeap × Bool)) (h : DsHeap) (n : Nat)
    (dst : DsvLoc) : Option DsHeap :=
  if dst = dsVal (N.own n) then some h
  else
    match copy h (dsVal (N.own n)) dst with
    | some (h, false) => some h
    | _ => none

/-- A name of a variable takes the value back; `back` is how, if the decoder does it. -/
def ssaBack (back : Option (DsHeap → DsvLoc → DsvLoc → Option (DsHeap × Bool))) (h : DsHeap)
    (n : Nat) (dst : DsvLoc) : Option DsHeap :=
  match N.var n, back with
  | some _, some copy => copyBack N copy h n dst
  | _, _ => some h

/-- A value is put at the `i`-th place that the left side stands for, and copied back. -/
def ssaAssign (back : Option (DsHeap → DsvLoc → DsvLoc → Option (DsHeap × Bool)))
    (rand : List Nat → Nat) (h : DsHeap) (n i : Nat) (w : DataStateVal) : Option DsHeap := do
  let h ← ssaDest N h n
  match getDsVal E rand fuel h (dsVal (N.own n)) 0 0 with
  | some (h, some locs) => do
    let dst ← locs[i]?
    let d ← h.get? dst
    if ¬ d.copyable w ∨ w.refTarget.map dsVal = some dst then none
    else ssaBack N back (h.set dst w) n dst
  | _ => none

/-- `dec_gassign_array_to_pointer`, for the argument `m` of a phi with its value at `src`; `none` is
    its error. -/
def decGassignArrayToPointer (h : DsHeap) (m : Nat) (src : DsvLoc) : Option DsHeap :=
  match N.elemBits (N.own m) with
  | none => some h
  | some bits =>
    match h.get? src with
    | some (.sec2 raw .addr ⟨some ds, offset, b⟩) =>
      match h ds with
      | .sec3 .. =>
        some (h.set src ((DataStateVal.sec2 raw .addr ⟨some ds, offset, b⟩).withBits bits))
      | _ => none
    | _ => none

/-- `dec_gimple_phi` with the argument `m`: the value goes from the `j`-th place that this stands
    for to the `i`-th of the result. -/
def ssaPhi (rand rand' : List Nat → Nat) (h : DsHeap) (n m i j : Nat) :
    Option (DsHeap × DataStateVal) := do
  let h ← ssaDest N h n
  let h ← ssaOperand N fuel rand' h m
  match getDsVal E rand fuel h (dsVal (N.own n)) 0 0 with
  | some (h, some dsts) =>
    match getDsVal E rand' fuel h (dsVal (N.own m)) 0 0 with
    | some (h, some srcs) => do
      let dst ← dsts[i]?
      let src ← srcs[j]?
      let d ← h.get? dst
      let s ← h.get? src
      if ¬ d.samePhiType s then none
      else do
        let h ← decGassignArrayToPointer N h m src
        let s ← h.get? src
        match dsvCopyData h dst src with
        | some (h, false) => (ssaBack N (some dsvCopyDataForce) h n dst).map fun h => (h, s)
        | _ => none
    | _ => none
  | _ => none

/-! ## The statements of a frame -/

/-- The data states, and the value that the latest definition of each name gave it. -/
structure SsaState where
  heap : DsHeap
  latest : Nat → Option DataStateVal

/-- What is decoded.  An assignment writes a value that was found by its type; `operand` is a name
    read by a statement, `store` an assignment to memory. -/
inductive SsaEvent (E : DataEnv) where
  | assign (n : Nat) (code : RhsCode) (w : DataStateVal) (i : Nat) (rand : List Nat → Nat)
  | callRet (n : Nat) (w : RegVal E) (i : Nat) (rand : List Nat → Nat)
  | phi (n m i j : Nat) (rand rand' : List Nat → Nat)
  | operand (n : Nat) (rand : List Nat → Nat)
  | store (t : DsvLoc) (w : DataStateVal)

/-- The value that a definition gives. -/
def given (w : DataStateVal) : Option DataStateVal := if w.isUnset then none else some w

/-- The argument `m` of a phi was given `w` if it is the address of an array. -/
def SsaNames.latestOf (latest : Nat → Option DataStateVal) (m : Nat) (w : DataStateVal) :
    Nat → Option DataStateVal :=
  if (N.elemBits (N.own m)).isSome then Function.update latest m (some w) else latest

/-- A step that is decoded with success.  A default definition is defined by no statement, and the
    address of an array by no phi. -/
def ssaStep (s : SsaState) : SsaEvent E → Option SsaState
  | .assign n code w i rand =>
    if N.defaultDef n ∨ w.isUnset then none
    else
      let back := if code.setsLhsVal then some dsvCopyDataForce else none
      (ssaAssign N fuel back rand s.heap n i w).map fun h =>
        ⟨h, Function.update s.latest n (some w)⟩
  | .callRet n w i rand =>
    if N.defaultDef n then none
    else
      (ssaAssign N fuel (some dsvCopyData) rand s.heap n i w.1).map fun h =>
        ⟨h, Function.update s.latest n (given w.1)⟩
  | .phi n m i j rand rand' =>
    if N.defaultDef n ∨ (N.elemBits (N.own n)).isSome then none
    else
      (ssaPhi N fuel rand rand' s.heap n m i j).map fun (h, read) =>
        let latest := N.latestOf s.latest m read
        ⟨h, Function.update latest n ((latest m).or (some read))⟩
  | .operand n rand => do
    let h ← ssaOperand N fuel rand s.heap n
    match getDsVal E rand fuel h (dsVal (N.own n)) 0 0 with
    | some (h, some _) => some ⟨h, s.latest⟩
    | _ => none
  | .store t w =>
    if N.memory t.ds then some ⟨s.heap.set t w, s.latest⟩ else none

end Srcinv.Analysis
