import Srcinv.Analysis.SsaName
import Srcinv.Lib.ByteNum

/-!
# `get_ds_via_tree` (`analysis/gcc/c.cc`)

An operand of a statement is a tree: a variable, an SSA name or a constant, under any number of
accessors.  `get_ds_via_tree` makes a data state for it.  That of an accessor is a new one, which
refers to the data state that the inner tree refers to (`ds_vref_setv` goes through one reference),
at an offset that is moved, with the width of what is accessed.

* `getDsViaTree` — the cases of the function that read; writing an SSA name is `ssaDest`.
* `checkBounds` — where the flag `SAMPLE_SF_OOBR` is set.

A new data state is a value until something points at it; what the lookup of a variable finds is
part of the tree.  The array references that were evaluated with an index that is known are a
history that the code does not keep.
-/

namespace Srcinv.Analysis

open Srcinv.Lib

/-! ## Integers -/

/-- Conversion to `u64`. -/
def u64 (x : Int) : Nat := (x % 2 ^ 64).toNat

/-- `clib_memcpy_bits` to `n` bytes that are cleared.  The sources of clib are not here. -/
structure MemcpyBits where
  copy : Nat → List Nat → List Nat
  copy_eq : ∀ n src, copy n src = (src ++ List.replicate n 0).take n

/-- Copying byte by byte. -/
def MemcpyBits.plain : MemcpyBits :=
  ⟨fun n src => (src ++ List.replicate n 0).take n, fun _ _ => rfl⟩

/-- A `u64` that is 0 at first and gets the bytes of a value. -/
def MemcpyBits.toU64 (B : MemcpyBits) (bytes : List Nat) : Nat := bytesNat (B.copy 8 bytes)

theorem MemcpyBits.toU64_eq (B : MemcpyBits) (bytes : List Nat) :
    B.toU64 bytes = bytesNat bytes % 2 ^ 64 := by
  unfold MemcpyBits.toU64
  rw [B.copy_eq, bytesNat_copy]
  rfl

theorem s32_of_dvd {x y : Int} (h : 2 ^ 32 ∣ x - y) : s32 x = s32 y := by
  unfold s32
  rw [Int.bmod_eq_bmod_iff_bmod_sub_eq_zero, ← Int.dvd_iff_bmod_eq_zero]
  exact h

theorem s32_dvd (x : Int) : 2 ^ 32 ∣ s32 x - x := Int.dvd_bmod_sub_self

theorem s32_add (x y : Int) : s32 (s32 x + y) = s32 (x + y) := Int.bmod_add_bmod

theorem u64_dvd (x : Int) : 2 ^ 32 ∣ (u64 x : Int) - x := by
  unfold u64
  rw [Int.toNat_of_nonneg (Int.emod_nonneg _ (by decide))]
  omega

/-! ## Trees -/

/-- `TREE_TYPE` of an integer: `TYPE_UNSIGNED` and `TYPE_PRECISION`. -/
structure IntType where
  signed : Bool
  prec : Nat
  deriving DecidableEq, Repr

/-- The number that the bytes of a value are in the type. -/
def IntType.value (t : IntType) (bytes : List Nat) : Int := bytesInt t.signed t.prec bytes

/-- The up bound of an array: none, a constant, or an expression, of which `TREE_INT_CST_LOW` reads
    some word. -/
inductive ArrayBound where
  | absent
  | constant (c : Int)
  | variable (word : Nat)
  deriving DecidableEq, Repr

/-- What an `ARRAY_REF` tells of its array, and the type of its index. -/
structure ArrayDims where
  elemSize : Nat
  low : Int
  up : ArrayBound
  indexType : IntType
  deriving DecidableEq, Repr

/-- `up_idx`. -/
def ArrayDims.upIdx (dims : ArrayDims) : Nat :=
  match dims.up with
  | .absent => 0
  | .constant c => u64 c
  | .variable word => word % 2 ^ 64

/-- A `FIELD_DECL`: its place, `TYPE_SIZE` of its type and `DECL_SIZE`. -/
structure FieldDecl where
  fieldOffset : Option Nat
  bitOffset : Option Nat
  typeSize : Nat
  declSize : Nat
  deriving DecidableEq, Repr

/-- `get_field_offset`, before it is cut to 64 bits. -/
def getFieldOffset (field : FieldDecl) : Nat :=
  field.fieldOffset.getD 0 * BITS_PER_UNIT + field.bitOffset.getD 0

/-- A `MEM_REF`: its offset in bytes, `TYPE_SIZE` of its type, and the types (with their
    `TYPE_SIZE`) of the two operands. -/
structure MemRefInfo where
  offset : Int
  size : Nat
  type0 : Nat × Nat
  type1 : Nat × Nat
  deriving DecidableEq, Repr

/-- `this_bits` of a `MEM_REF`. -/
def MemRefInfo.thisBits (m : MemRefInfo) : Nat :=
  if m.type0.1 ≠ m.type1.1 then m.type1.2 else m.type0.2

/-- What the lookup of a variable finds.  A `VAR_DECL` sets the node of its data state. -/
inductive DeclState where
  | found (ds : Nat) (initNode : Option Nat) (raw bits : Nat)
  | external (raw : Nat)
  | missing

/-- An operand.  `cst` stands for the constants, functions and constructors, for which a new data
    state is made; `unhandled` for `NULL`, types, trees of an incomplete type and the codes that
    have no case. -/
inductive DsTree where
  | unhandled
  | cst (v : DataStateVal)
  | decl (d : DeclState)
  | ssaName (own : Nat) (var : Option DeclState) (defaultDef : Bool)
  | addrExpr (raw : Nat) (op0 : DsTree) (bits : Nat)
  | componentRef (raw : Nat) (op0 : DsTree) (op1 : FieldDecl)
  | bitFieldRef (raw : Nat) (op0 : DsTree) (op1 op2 : Nat)
  | arrayRef (raw : Nat) (op0 op1 : DsTree) (dims : ArrayDims)
  | memRef (raw : Nat) (op0 : DsTree) (info : MemRefInfo)

/-! ## The state of the decoder -/

/-- An array reference whose index has a value that is known. -/
structure ArrayRead where
  dims : ArrayDims
  index : List Nat

/-- The data states, the number of the next one, the flags of the sample set that the function
    sets, and the array references so far. -/
structure TreeState where
  heap : DsHeap
  next : Nat
  oobr : Bool
  nullref : Bool
  reads : List ArrayRead

/-- A data state: one that others know of, or a new one. -/
inductive DsPtr where
  | held (ds : Nat)
  | new (v : DataStateVal)

def DsPtr.val (s : TreeState) : DsPtr → DataStateVal
  | .held ds => s.heap ds
  | .new v => v

/-- A new data state gets its number. -/
def DsPtr.attach (s : TreeState) : DsPtr → TreeState × Nat
  | .held ds => (s, ds)
  | .new v => ({ s with heap := Function.update s.heap s.next v, next := s.next + 1 }, s.next)

/-- A new data state that `ds_vref_setv` points at `tmp`.  It does not fail, nothing points at the
    new data state yet. -/
def vrefNew (s : TreeState) (raw : Nat) (type : Sec2) (tmp : DsPtr) (offset : Int) (bits : Nat) :
    TreeState × DsPtr :=
  match tmp.val s with
  | .sec2 _ .ref v2 => (s, .new (.sec2 raw type ⟨v2.ds, s32 (offset + v2.offset), bits⟩))
  | _ => ((tmp.attach s).1, .new (.sec2 raw type ⟨some (tmp.attach s).2, offset, bits⟩))

/-- The end of a case: no data state for the inner tree, none for this one. -/
def refVia (raw : Nat) (type : Sec2) (offset : Int) (bits : Nat) (s : TreeState) :
    Option DsPtr → TreeState × Option DsPtr
  | none => (s, none)
  | some tmp => ((vrefNew s raw type tmp offset bits).1,
      some (vrefNew s raw type tmp offset bits).2)

/-- The bytes of a `DSVT_INT_CST`. -/
def DataStateVal.intCst? : DataStateVal → Option (List Nat)
  | .sec1 _ .intCst v1 => some v1
  | _ => none

/-- The target of a `DSVT_ADDR`. -/
def DataStateVal.addr? : DataStateVal → Option DataStateValRef
  | .sec2 _ .addr v2 => some v2
  | _ => none

/-- The values at some places. -/
def DsHeap.valuesAt (h : DsHeap) (locs : List DsvLoc) : List DataStateVal := locs.filterMap h.get?

def PAGE_SIZE : Nat := 4096

/-- `sample_set_check_nullptr` of the first integer. -/
def checkNullptr (s : TreeState) (vals : List DataStateVal) : TreeState :=
  match vals.findSome? DataStateVal.intCst? with
  | none => s
  | some bytes => { s with nullref := s.nullref || bytesNat (bytes.take 8) < PAGE_SIZE }

/-! ## The cases -/

variable (E : DataEnv) (B : MemcpyBits) (rand : List Nat → Nat) (fuel : Nat)

/-- `get_ds_val` of a data state. -/
def readDs (s : TreeState) (ds : Nat) (offset : Int) (bits : Nat) :
    Option (TreeState × Option (List DsvLoc)) :=
  (getDsVal E rand fuel s.heap (dsVal ds) offset bits).map fun (h, locs) =>
    ({ s with heap := h }, locs)

/-- `dsv_set_raw` of the data state of a `VAR_DECL`. -/
def setNode (h : DsHeap) (ds : Nat) : Option Nat → DsHeap
  | none => h
  | some node => h.set (dsVal ds) ((h ds).withRaw node)

/-- `VAR_DECL`, `PARM_DECL` and `RESULT_DECL`. -/
def getDsDecl (s : TreeState) : DeclState → TreeState × Option DsPtr
  | .missing => (s, none)
  | .external raw => (s, some (.new (.unk raw)))
  | .found ds initNode raw bits =>
    refVia raw .ref 0 (u32 bits) { s with heap := setNode s.heap ds initNode } (some (.held ds))

/-- `SSA_NAME`, to read it. -/
def getDsSsa (s : TreeState) (own : Nat) (var : Option DeclState) (defaultDef : Bool) :
    Option (TreeState × Option DsPtr) :=
  match var with
  | none => some (s, some (.held own))
  | some d =>
    match getDsDecl s d with
    | (s, none) => some (s, none)
    | (s, some varDs) =>
      match defaultDef, s.heap own with
      | true, .unk _ =>
        match readDs E rand fuel (varDs.attach s).1 (varDs.attach s).2 0 0 with
        | none => none
        | some (s, none) => some (s, none)
        | some (s, some locs) =>
          match dsvCopyFromArg s.heap (dsVal own) locs with
          | none => some (s, none)
          | some h => some ({ s with heap := h }, some (.held own))
      | _, _ => some (s, some (.held own))

/-- The index of an `ARRAY_REF`: the first integer that is found. -/
def indexBytes (s : TreeState) : Option DsPtr → Option (TreeState × Option (List Nat))
  | none => some (s, none)
  | some index =>
    match readDs E rand fuel (index.attach s).1 (index.attach s).2 0 0 with
    | none => none
    | some (s, none) => some (s, none)
    | some (s, some locs) => some (s, (s.heap.valuesAt locs).findSome? DataStateVal.intCst?)

/-- The code's check of an index. -/
def ArrayRead.Caught (r : ArrayRead) : Prop :=
  r.dims.upIdx ≠ 0 ∧ r.dims.upIdx < B.toU64 r.index

instance (r : ArrayRead) : Decidable (r.Caught B) := by
  unfold ArrayRead.Caught
  infer_instance

/-- `SAMPLE_SF_OOBR`. -/
def checkBounds (dims : ArrayDims) (s : TreeState) : Option (List Nat) → TreeState
  | none => s
  | some bytes =>
    { s with
      oobr := s.oobr || (⟨dims, bytes⟩ : ArrayRead).Caught B
      reads := ⟨dims, bytes⟩ :: s.reads }

/-- `ARRAY_REF`, when its array and its index are there. -/
def arrayRefTo (raw : Nat) (tmp : DsPtr) (dims : ArrayDims) (s : TreeState)
    (index : Option (List Nat)) : TreeState × Option DsPtr :=
  let thisOffset : Int := dims.elemSize * BITS_PER_UNIT *
    (((index.map B.toU64).getD 0 : Nat) - (u64 dims.low : Nat) : Int)
  refVia raw .ref (s32 thisOffset) (u32 (dims.elemSize * BITS_PER_UNIT))
    (checkBounds B dims s index) (some tmp)

/-- `MEM_REF`, when its base is there.  Only the first address counts. -/
def memRefTo (raw : Nat) (info : MemRefInfo) (s : TreeState) (ds : Nat) :
    Option (TreeState × Option DsPtr) :=
  let thisOffset := info.offset * BITS_PER_UNIT
  let thisBits := u32 info.thisBits
  match readDs E rand fuel s ds (s32 thisOffset) thisBits with
  | none => none
  | some (s, none) => some (refVia raw .ref (s32 thisOffset) thisBits s (some (.held ds)))
  | some (s, some locs) =>
    let vals := s.heap.valuesAt locs
    match vals.findSome? DataStateVal.addr? with
    | none =>
      some (refVia raw .ref (s32 thisOffset) thisBits (checkNullptr s vals) (some (.held ds)))
    | some ⟨none, offset, _⟩ =>
      some (refVia raw .ref (s32 (thisOffset + offset)) thisBits (checkNullptr s vals)
        (some (.held ds)))
    | some ⟨some newtmp, offset, _⟩ =>
      some (refVia raw .ref (s32 (thisOffset + offset)) thisBits s (some (.held newtmp)))

/-- `get_ds_via_tree`: the state after it and what it returns; it does not come back where
    `get_ds_val` does not.  Offsets and sizes are cut when they are stored, which leaves of a `u64`
    what is left of the number itself. -/
def getDsViaTree : DsTree → TreeState → Option (TreeState × Option DsPtr)
  | .unhandled, s => some (s, none)
  | .cst v, s => some (s, some (.new v))
  | .decl d, s => some (getDsDecl s d)
  | .ssaName own var defaultDef, s => getDsSsa E rand fuel s own var defaultDef
  | .addrExpr raw op0 bits, s =>
    match getDsViaTree op0 s with
    | none => none
    | some (s, tmp) => some (refVia raw .addr 0 (u32 bits) s tmp)
  | .componentRef raw op0 op1, s =>
    match getDsViaTree op0 s with
    | none => none
    | some (s, tmp) => some (refVia raw .ref (s32 (getFieldOffset op1)) (u32 op1.typeSize) s tmp)
  | .bitFieldRef raw op0 op1 op2, s =>
    match getDsViaTree op0 s with
    | none => none
    | some (s, tmp) => some (refVia raw .ref (s32 op1) (u32 op2) s tmp)
  | .arrayRef raw op0 op1 dims, s =>
    match getDsViaTree op0 s with
    | none => none
    | some (s, none) => some (s, none)
    | some (s, some tmp) =>
      match getDsViaTree op1 s with
      | none => none
      | some (s, indexDs) =>
        match indexBytes E rand fuel s indexDs with
        | none => none
        | some (s, index) => some (arrayRefTo B raw tmp dims s index)
  | .memRef raw op0 info, s =>
    match getDsViaTree op0 s with
    | none => none
    | some (s, none) => some (s, none)
    | some (s, some tmp) => memRefTo E rand fuel raw info (tmp.attach s).1 (tmp.attach s).2

variable {E B rand fuel}

/-! ## The operands of an evaluation -/

section Operands

variable {s s' : TreeState} {p : Option DsPtr}

/-- A reference that comes from its first operand alone. -/
theorem getDsViaTree_operand {t op0 : DsTree}
    {f : TreeState → Option DsPtr → TreeState × Option DsPtr}
    (ht : getDsViaTree E B rand fuel t s = match getDsViaTree E B rand fuel op0 s with
      | none => none
      | some (s, tmp) => some (f s tmp))
    (h : getDsViaTree E B rand fuel t s = some (s', p)) :
    ∃ s₁ tmp, getDsViaTree E B rand fuel op0 s = some (s₁, tmp) ∧ f s₁ tmp = (s', p) := by
  rw [ht] at h
  split at h
  · cases h
  · rename_i s₁ tmp hget
    exact ⟨s₁, tmp, hget, Option.some.inj h⟩

theorem getDsViaTree_memRef {raw : Nat} {op0 : DsTree} {info : MemRefInfo}
    (h : getDsViaTree E B rand fuel (.memRef raw op0 info) s = some (s', p)) :
    (getDsViaTree E B rand fuel op0 s = some (s', none) ∧ p = none) ∨
      ∃ s₁ tmp, getDsViaTree E B rand fuel op0 s = some (s₁, some tmp) ∧
        memRefTo E rand fuel raw info (tmp.attach s₁).1 (tmp.attach s₁).2 = some (s', p) := by
  rw [getDsViaTree] at h
  split at h
  · cases h
  · rename_i hget
    cases h
    exact Or.inl ⟨hget, rfl⟩
  · rename_i s₁ tmp hget
    exact Or.inr ⟨s₁, tmp, hget, h⟩

/-- An array and its index, one after the other. -/
theorem getDsViaTree_arrayRef {raw : Nat} {op0 op1 : DsTree} {dims : ArrayDims}
    (h : getDsViaTree E B rand fuel (.arrayRef raw op0 op1 dims) s = some (s', p)) :
    (getDsViaTree E B rand fuel op0 s = some (s', none) ∧ p = none) ∨
      ∃ s₁ tmp s₂ indexDs s₃ bytes, getDsViaTree E B rand fuel op0 s = some (s₁, some tmp) ∧
        getDsViaTree E B rand fuel op1 s₁ = some (s₂, indexDs) ∧
        indexBytes E rand fuel s₂ indexDs = some (s₃, bytes) ∧
        arrayRefTo B raw tmp dims s₃ bytes = (s', p) := by
  rw [getDsViaTree] at h
  split at h
  · cases h
  · rename_i hget
    cases h
    exact Or.inl ⟨hget, rfl⟩
  · rename_i s₁ tmp hget
    split at h
    · cases h
    · rename_i s₂ indexDs hget₁
      split at h
      · cases h
      · rename_i s₃ bytes hbytes
        exact Or.inr ⟨s₁, tmp, s₂, indexDs, s₃, bytes, hget, hget₁, hbytes, Option.some.inj h⟩

end Operands

/-! ## What an evaluation keeps -/

/-- What the steps of an evaluation keep: a new data state, a node that is set, a value that is read
    (and initialised), an SSA name that gets the value of its variable, and the flag of null
    pointers. -/
structure KeptBySteps (E : DataEnv) (rand : List Nat → Nat) (fuel : Nat) (P : TreeState → Prop) :
    Prop where
  attach : ∀ s p, P s → P (DsPtr.attach s p).1
  node : ∀ s d node, P s → P { s with heap := setNode s.heap d node }
  read : ∀ {s s' d offset bits r}, readDs E rand fuel s d offset bits = some (s', r) → P s → P s'
  copy : ∀ {s s' own raw locs h}, s.heap own = .unk raw → P s → P s' →
    dsvCopyFromArg s'.heap (dsVal own) locs = some h → P { s' with heap := h }
  nullref : ∀ s b, P s → P { s with nullref := b }

namespace KeptBySteps

variable {P : TreeState → Prop} {s s' : TreeState} {raw bits : Nat} {type : Sec2} {offset : Int}
  {tmp p : Option DsPtr}

theorem refVia (hP : KeptBySteps E rand fuel P)
    (h : Analysis.refVia raw type offset bits s tmp = (s', p)) (hs : P s) : P s' := by
  cases tmp with
  | none =>
    cases h
    exact hs
  | some tmp =>
    cases h
    show P (vrefNew s raw type tmp offset bits).1
    unfold vrefNew
    split
    · exact hs
    · exact hP.attach s tmp hs

theorem getDsDecl (hP : KeptBySteps E rand fuel P) {d : DeclState}
    (h : Analysis.getDsDecl s d = (s', p)) (hs : P s) : P s' := by
  cases d with
  | found ds initNode raw bits =>
    have h : Analysis.refVia raw .ref 0 (u32 bits)
      { s with heap := setNode s.heap ds initNode } (some (.held ds)) = (s', p) := h
    exact hP.refVia h (hP.node s ds initNode hs)
  | _ =>
    cases h
    exact hs

theorem getDsSsa (hP : KeptBySteps E rand fuel P) {own : Nat} {var : Option DeclState}
    {defaultDef : Bool}
    (h : Analysis.getDsSsa E rand fuel s own var defaultDef = some (s', p)) (hs : P s) :
    P s' := by
  unfold Analysis.getDsSsa at h
  split at h
  · cases h
    exact hs
  · split at h
    · rename_i s₁ hget
      cases h
      exact hP.getDsDecl hget hs
    · rename_i s₁ varDs hget
      have hs₁ := hP.getDsDecl hget hs
      split at h
      · rename_i raw hown
        split at h
        · cases h
        · rename_i hread
          cases h
          exact hP.read hread (hP.attach s₁ varDs hs₁)
        · rename_i s₂ locs hread
          have hs₂ := hP.read hread (hP.attach s₁ varDs hs₁)
          split at h
          · cases h
            exact hs₂
          · rename_i hcopied
            cases h
            exact hP.copy hown hs₁ hs₂ hcopied
      · cases h
        exact hs₁

theorem indexBytes (hP : KeptBySteps E rand fuel P) {bytes : Option (List Nat)}
    (h : Analysis.indexBytes E rand fuel s p = some (s', bytes)) (hs : P s) : P s' := by
  unfold Analysis.indexBytes at h
  split at h
  · cases h
    exact hs
  · rename_i index
    split at h
    · cases h
    · rename_i hread
      cases h
      exact hP.read hread (hP.attach s index hs)
    · rename_i hread
      cases h
      exact hP.read hread (hP.attach s index hs)

theorem checkNullptr (hP : KeptBySteps E rand fuel P) (vals : List DataStateVal) (hs : P s) :
    P (Analysis.checkNullptr s vals) := by
  unfold Analysis.checkNullptr
  split
  · exact hs
  · exact hP.nullref s _ hs

theorem memRefTo (hP : KeptBySteps E rand fuel P) {info : MemRefInfo} {ds : Nat}
    (h : Analysis.memRefTo E rand fuel raw info s ds = some (s', p)) (hs : P s) : P s' := by
  unfold Analysis.memRefTo at h
  simp only at h
  split at h
  · cases h
  · rename_i hread
    exact hP.refVia (Option.some.inj h) (hP.read hread hs)
  · rename_i hread
    have hs₁ := hP.read hread hs
    split at h
    · exact hP.refVia (Option.some.inj h) (hP.checkNullptr _ hs₁)
    · exact hP.refVia (Option.some.inj h) (hP.checkNullptr _ hs₁)
    · exact hP.refVia (Option.some.inj h) hs₁

/-- **What the steps keep, and the check of an index too, `get_ds_via_tree` keeps.** -/
theorem getDsViaTree (hP : KeptBySteps E rand fuel P)
    (hbounds : ∀ dims s bytes, P s → P (checkBounds B dims s bytes)) (t : DsTree) :
    ∀ {s s' : TreeState} {p : Option DsPtr},
      Analysis.getDsViaTree E B rand fuel t s = some (s', p) → P s → P s' := by
  induction t with
  | unhandled =>
    intro s s' p h hs
    cases h
    exact hs
  | cst v =>
    intro s s' p h hs
    cases h
    exact hs
  | decl d =>
    intro s s' p h hs
    exact hP.getDsDecl (Option.some.inj h) hs
  | ssaName own var defaultDef =>
    intro s s' p h hs
    exact hP.getDsSsa h hs
  | addrExpr raw op0 bits ih =>
    intro s s' p h hs
    obtain ⟨s₁, tmp, hget, hvia⟩ := getDsViaTree_operand rfl h
    exact hP.refVia hvia (ih hget hs)
  | componentRef raw op0 op1 ih =>
    intro s s' p h hs
    obtain ⟨s₁, tmp, hget, hvia⟩ := getDsViaTree_operand rfl h
    exact hP.refVia hvia (ih hget hs)
  | bitFieldRef raw op0 op1 op2 ih =>
    intro s s' p h hs
    obtain ⟨s₁, tmp, hget, hvia⟩ := getDsViaTree_operand rfl h
    exact hP.refVia hvia (ih hget hs)
  | memRef raw op0 info ih =>
    intro s s' p h hs
    obtain ⟨hget, rfl⟩ | ⟨s₁, tmp, hget, hmem⟩ := getDsViaTree_memRef h
    · exact ih hget hs
    · exact hP.memRefTo hmem (hP.attach s₁ tmp (ih hget hs))
  | arrayRef raw op0 op1 dims ih ih₁ =>
    intro s s' p h hs
    obtain ⟨hget, rfl⟩ | ⟨s₁, tmp, s₂, indexDs, s₃, bytes, hget, hget₁, hbytes, hto⟩ :=
      getDsViaTree_arrayRef h
    · exact ih hget hs
    · have hs₃ := hP.indexBytes hbytes (ih₁ hget₁ (ih hget hs))
      unfold arrayRefTo at hto
      exact hP.refVia hto (hbounds dims s₃ bytes hs₃)

end KeptBySteps

end Srcinv.Analysis
