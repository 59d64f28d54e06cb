import Srcinv.Analysis.DsTree

/-!
# Nests of accessors (`get_ds_via_tree`)

Whatever the accessors, what `get_ds_via_tree` returns for a nest of them over a variable refers to
the data state of the variable (or the one that the pointer of a `MEM_REF` addresses).  The offset
and the width are those of the object that is accessed, but for the operands of a `BIT_FIELD_REF`,
which are read in the wrong order, the width of a `MEM_REF`, which is that of a pointer, and the
few smaller slips that `slip` and `codeBits` name.

* `getDsViaTree_ref` — the reference for a nest, with what went wrong in its offset.
* `reference_exact` — when it is the reference to the object.
* `bit_field_read_elsewhere` — 8 bits from bit 16 are read as 16 bits from bit 8.
-/

namespace Srcinv.Analysis

open Srcinv.Lib

/-! ## What a tree denotes -/

/-- The data state that one stands for, and where in it: one that refers to another stands for a
    part of that. -/
def flatten (h : DsHeap) (ds : Nat) : Option (Nat × Int) :=
  match h ds with
  | .sec2 _ .ref v2 => v2.ds.map (·, v2.offset)
  | _ => some (ds, 0)

def DsTree.isSsaName : DsTree → Bool
  | ssaName .. => true
  | _ => false

/-- The size in bits of the object that a tree denotes. -/
def DsTree.objectBits : DsTree → Nat
  | decl (.found _ _ _ bits) => bits
  | componentRef _ _ op1 => op1.declSize
  | bitFieldRef _ _ op1 _ => op1
  | arrayRef _ _ _ dims => dims.elemSize * BITS_PER_UNIT
  | memRef _ _ info => info.size
  | _ => 0

variable (E : DataEnv) (B : MemcpyBits) (rand : List Nat → Nat) (fuel : Nat)

/-- The value of the index of an array reference, if it is known. -/
def arrayIndex (op0 op1 : DsTree) (s : TreeState) : Option (List Nat) :=
  match getDsViaTree E B rand fuel op0 s with
  | some (s, some _) =>
    match getDsViaTree E B rand fuel op1 s with
    | some (s, indexDs) => (indexBytes E rand fuel s indexDs).bind Prod.snd
    | none => none
  | _ => none

/-- The address that a pointer holds, and the data states when it is read. -/
def pointee (op0 : DsTree) (s : TreeState) : Option (DsHeap × DataStateValRef) :=
  match getDsViaTree E B rand fuel op0 s with
  | some (s, some tmp) =>
    match readDs E rand fuel (tmp.attach s).1 (tmp.attach s).2 0 0 with
    | some (s, some locs) =>
      ((s.heap.valuesAt locs).findSome? DataStateVal.addr?).map (s.heap, ·)
    | _ => none
  | _ => none

/-- The object that a nest denotes: a data state and the offset in bits, which is the sum of those
    of the accessors.  It is unknown where an index or a pointer is; SSA names have no elements. -/
def placeOf : DsTree → TreeState → Option (Nat × Int)
  | .decl (.found ds _ _ _), s => flatten s.heap ds
  | .ssaName own var defaultDef, s =>
    match getDsSsa E rand fuel s own var defaultDef with
    | some (s, some (.held ds)) => flatten s.heap ds
    | _ => none
  | .componentRef _ op0 op1, s => (placeOf op0 s).map fun p => (p.1, p.2 + getFieldOffset op1)
  | .bitFieldRef _ op0 _ op2, s => (placeOf op0 s).map fun p => (p.1, p.2 + op2)
  | .arrayRef _ op0 op1 dims, s =>
    if op0.isSsaName then none
    else
      match arrayIndex E B rand fuel op0 op1 s with
      | none => none
      | some bytes => (placeOf op0 s).map fun p => (p.1, p.2 +
          dims.elemSize * BITS_PER_UNIT * (dims.indexType.value bytes - dims.low))
  | .memRef _ op0 info, s =>
    match pointee E B rand fuel op0 s with
    | some (h, ⟨some ds, offset, _⟩) =>
      (flatten h ds).map fun p => (p.1, p.2 + offset + info.offset * BITS_PER_UNIT)
    | _ => none
  | _, _ => none

/-! ## What goes wrong -/

/-- What is added to the offset by mistake: a `BIT_FIELD_REF` adds its width (the first operand)
    instead of its place (the second), and an index is read without its sign. -/
def slip : DsTree → TreeState → Int
  | .componentRef _ op0 _, s => slip op0 s
  | .bitFieldRef _ op0 op1 op2, s => slip op0 s + (op1 - op2)
  | .arrayRef _ op0 op1 dims, s =>
    let bytes := (arrayIndex E B rand fuel op0 op1 s).getD []
    slip op0 s + dims.elemSize * BITS_PER_UNIT * (bytesNat bytes - dims.indexType.value bytes)
  | _, _ => 0

/-- The width that is stored: the place of a `BIT_FIELD_REF`, `TYPE_SIZE` of the type of a field
    (not `DECL_SIZE`), and `TYPE_SIZE` of a pointer for a `MEM_REF`. -/
def DsTree.codeBits : DsTree → Nat
  | decl (.found _ _ _ bits) => u32 bits
  | componentRef _ _ op1 => u32 op1.typeSize
  | bitFieldRef _ _ _ op2 => u32 op2
  | arrayRef _ _ _ dims => u32 (dims.elemSize * BITS_PER_UNIT)
  | memRef _ _ info => u32 info.thisBits
  | _ => 0

/-! ## References -/

/-- `ds_vref_setv` through `ptr` comes to a place in `ds`. -/
def Stands (s : TreeState) (ptr : DsPtr) (ds : Nat) (offset : Int) : Prop :=
  ∀ raw type x bits, vrefNew s raw type ptr (s32 x) bits =
    (s, .new (.sec2 raw type ⟨some ds, s32 (x + offset), bits⟩))

theorem stands_held {s : TreeState} {d ds : Nat} {offset : Int}
    (h : flatten s.heap d = some (ds, offset)) : Stands s (.held d) ds offset := by
  intro raw type x bits
  unfold flatten at h
  unfold vrefNew
  split at h
  · rename_i v2 hval
    obtain ⟨ds', hds', heq⟩ := Option.map_eq_some_iff.mp h
    cases heq
    have hval : DsPtr.val s (.held d) = .sec2 _ .ref v2 := hval
    rw [hval]
    simp only [hds', s32_add]
  · rename_i hval
    cases h
    split
    · rename_i v2 hval'
      exact absurd hval' (hval _ _)
    · simp only [DsPtr.attach, Int.add_zero]

theorem stands_new (s : TreeState) (raw ds : Nat) (offset : Int) (bits : Nat) :
    Stands s (.new (.sec2 raw .ref ⟨some ds, s32 offset, bits⟩)) ds offset := by
  intro raw' type x bits'
  unfold vrefNew
  simp only [DsPtr.val]
  rw [s32_add, Int.add_comm, s32_add, Int.add_comm]

/-- The node of a data state does not matter. -/
theorem flatten_setNode (h : DsHeap) (ds : Nat) (initNode : Option Nat) :
    flatten (setNode h ds initNode) ds = flatten h ds := by
  cases initNode with
  | none => rfl
  | some node =>
    have hset : setNode h ds (some node) ds = (h ds).withRaw node := by
      show h.set (dsVal ds) _ ds = _
      rw [set_dsVal h rfl]
      exact Function.update_self ..
    unfold flatten
    rw [hset]
    cases h ds with
    | sec2 raw type v2 => cases type <;> rfl
    | _ => rfl

/-! ## Reading a pointer -/

/-- The place that `get_ds_val` is asked for does not matter where an address comes out. -/
theorem getDsVal_addr {fuel : Nat} {h h' : DsHeap} {t : DsvLoc} {locs : List DsvLoc}
    {v2 : DataStateValRef} (hread : getDsVal E rand fuel h t 0 0 = some (h', some locs))
    (haddr : (h'.valuesAt locs).findSome? DataStateVal.addr? = some v2) (offset : Int)
    (bits : Nat) : getDsVal E rand fuel h t offset bits = some (h', some locs) := by
  induction fuel generalizing h with
  | zero => cases hread
  | succ fuel ih =>
    unfold getDsVal at hread ⊢
    cases hv : h.get? t with
    | none =>
      rw [hv] at hread
      cases hread
    | some v =>
      rw [hv] at hread
      simp only at hread ⊢
      by_cases hunset : v.isUnset
      · simp only [hunset, if_true] at hread ⊢
        by_cases herr : (dsvInit E rand h t v).2
        · simp only [herr, if_true] at hread
          cases hread
        · simp only [herr] at hread ⊢
          exact ih hread
      · simp only [hunset] at hread ⊢
        cases v with
        | sec2 raw type w2 =>
          cases type with
          | ref => exact hread
          | addr => exact hread
        | sec3 raw subtype total v3 =>
          -- the whole constructor is found, which is no address
          simp only [findVals_zero, Bool.false_eq_true, if_false] at hread
          cases hread
          simp only [DsHeap.valuesAt, List.filterMap_cons, hv, List.filterMap_nil] at haddr
          cases haddr
        | _ => exact hread

theorem readDs_addr {s s' : TreeState} {d : Nat} {locs : List DsvLoc} {v2 : DataStateValRef}
    (hread : readDs E rand fuel s d 0 0 = some (s', some locs))
    (haddr : (s'.heap.valuesAt locs).findSome? DataStateVal.addr? = some v2) (offset : Int)
    (bits : Nat) : readDs E rand fuel s d offset bits = some (s', some locs) := by
  unfold readDs at hread ⊢
  obtain ⟨⟨h, found⟩, hget, heq⟩ := Option.map_eq_some_iff.mp hread
  cases heq
  rw [getDsVal_addr E rand hget haddr offset bits]
  rfl

/-! ## The reference for a nest -/

variable {E B rand fuel}

/-- A reference through one that stands for a place. -/
theorem Stands.refVia {s : TreeState} {ptr : DsPtr} {ds : Nat} {offset : Int}
    (h : Stands s ptr ds offset) (raw : Nat) (x : Int) (bits : Nat) :
    refVia raw .ref (s32 x) bits s (some ptr) =
      (s, some (.new (.sec2 raw .ref ⟨some ds, s32 (x + offset), bits⟩))) := by
  unfold Analysis.refVia
  simp only [h raw .ref x bits]

/-- What comes out for a nest that denotes a place. -/
def RefersTo (t : DsTree) (s' : TreeState) (ptr : DsPtr) (ds : Nat) (offset : Int) : Prop :=
  Stands s' ptr ds offset ∧
    (t.isSsaName = false → ∃ raw, ptr = .new (.sec2 raw .ref ⟨some ds, s32 offset, t.codeBits⟩))

theorem refersTo_new {t : DsTree} {raw ds : Nat} {x offset offset' : Int} (s : TreeState)
    (h : 2 ^ 32 ∣ x + offset - offset') :
    RefersTo t s (.new (.sec2 raw .ref ⟨some ds, s32 (x + offset), t.codeBits⟩)) ds offset' := by
  rw [s32_of_dvd h]
  exact ⟨stands_new s _ _ _ _, fun _ => ⟨raw, rfl⟩⟩

theorem arrayIndex_some {op0 op1 : DsTree} {s s₁ : TreeState} {tmp : DsPtr} {bytes : List Nat}
    (hget : getDsViaTree E B rand fuel op0 s = some (s₁, some tmp))
    (h : arrayIndex E B rand fuel op0 op1 s = some bytes) :
    ∃ s₂ indexDs s₃, getDsViaTree E B rand fuel op1 s₁ = some (s₂, indexDs) ∧
      indexBytes E rand fuel s₂ indexDs = some (s₃, some bytes) := by
  unfold arrayIndex at h
  rw [hget] at h
  simp only at h
  split at h
  · rename_i s₂ indexDs hget₁
    obtain ⟨⟨s₃, found⟩, hbytes, rfl⟩ := Option.bind_eq_some_iff.mp h
    exact ⟨s₂, indexDs, s₃, hget₁, hbytes⟩
  · cases h

theorem pointee_some {op0 : DsTree} {s : TreeState} {h : DsHeap} {v2 : DataStateValRef}
    (hp : pointee E B rand fuel op0 s = some (h, v2)) :
    ∃ s₁ tmp s₂ locs, getDsViaTree E B rand fuel op0 s = some (s₁, some tmp) ∧
      readDs E rand fuel (tmp.attach s₁).1 (tmp.attach s₁).2 0 0 = some (s₂, some locs) ∧
        (s₂.heap.valuesAt locs).findSome? DataStateVal.addr? = some v2 ∧ h = s₂.heap := by
  unfold pointee at hp
  split at hp
  · rename_i s₁ tmp hget
    split at hp
    · rename_i s₂ locs hread
      obtain ⟨w2, haddr, heq⟩ := Option.map_eq_some_iff.mp hp
      cases heq
      exact ⟨s₁, tmp, s₂, locs, hget, hread, haddr, rfl⟩
    · cases hp
  · cases hp

/-- The offset of an element, in the 64 bits of the code and as a number. -/
theorem index_dvd (B : MemcpyBits) (dims : ArrayDims) (bytes : List Nat) (offset err : Int) :
    2 ^ 32 ∣ (dims.elemSize * BITS_PER_UNIT * ((B.toU64 bytes : Nat) - (u64 dims.low : Nat) : Int) +
      (offset + err)) - (offset + dims.elemSize * BITS_PER_UNIT *
        (dims.indexType.value bytes - dims.low) +
        (err + dims.elemSize * BITS_PER_UNIT * (bytesNat bytes - dims.indexType.value bytes))) := by
  have hindex : (2 : Int) ^ 32 ∣ (B.toU64 bytes : Int) - bytesNat bytes := by
    rw [B.toU64_eq]
    omega
  have hlow := u64_dvd dims.low
  have hexp :
      (dims.elemSize * BITS_PER_UNIT * ((B.toU64 bytes : Nat) - (u64 dims.low : Nat) : Int) +
      (offset + err)) - (offset + dims.elemSize * BITS_PER_UNIT *
        (dims.indexType.value bytes - dims.low) +
        (err + dims.elemSize * BITS_PER_UNIT * (bytesNat bytes - dims.indexType.value bytes))) =
      dims.elemSize * BITS_PER_UNIT *
        (((B.toU64 bytes : Nat) - bytesNat bytes : Int) - ((u64 dims.low : Nat) - dims.low)) := by
    ring
  rw [hexp]
  exact Dvd.dvd.mul_left (Int.dvd_sub hindex hlow) _

theorem Stands.result {t : DsTree} {s₀ s : TreeState} {ptr : DsPtr} {ds : Nat}
    {offset offset' : Int} (h : Stands s ptr ds offset) (raw : Nat) (x : Int)
    (hget : getDsViaTree E B rand fuel t s₀ =
      some (Analysis.refVia raw .ref (s32 x) t.codeBits s (some ptr)))
    (hdvd : 2 ^ 32 ∣ x + offset - offset') :
    ∃ s' ptr', getDsViaTree E B rand fuel t s₀ = some (s', some ptr') ∧
      RefersTo t s' ptr' ds offset' := by
  rw [h.refVia] at hget
  exact ⟨_, _, hget, refersTo_new s hdvd⟩

/-- An element of an array: the index adds to the offset, with what is lost of it. -/
theorem arrayRef_ref {raw : Nat} {op0 op1 : DsTree} {dims : ArrayDims} {s : TreeState} {ds : Nat}
    {offset : Int} (ih : ∀ {s : TreeState} {ds : Nat} {offset : Int},
      placeOf E B rand fuel op0 s = some (ds, offset) →
        ∃ s' ptr, getDsViaTree E B rand fuel op0 s = some (s', some ptr) ∧
          RefersTo op0 s' ptr ds (offset + slip E B rand fuel op0 s))
    (h : placeOf E B rand fuel (.arrayRef raw op0 op1 dims) s = some (ds, offset)) :
    ∃ s' ptr, getDsViaTree E B rand fuel (.arrayRef raw op0 op1 dims) s = some (s', some ptr) ∧
      RefersTo (.arrayRef raw op0 op1 dims) s' ptr ds
        (offset + slip E B rand fuel (.arrayRef raw op0 op1 dims) s) := by
  rw [placeOf] at h
  by_cases hssa : op0.isSsaName
  · rw [if_pos hssa] at h
    cases h
  rw [if_neg hssa] at h
  cases hindex : arrayIndex E B rand fuel op0 op1 s with
  | none =>
    rw [hindex] at h
    cases h
  | some bytes =>
    rw [hindex] at h
    obtain ⟨⟨ds', offset'⟩, hplace, heq⟩ := Option.map_eq_some_iff.mp h
    cases heq
    obtain ⟨s₁, ptr, hget, -, hnew⟩ := ih hplace
    obtain ⟨raw', rfl⟩ := hnew (by simpa using hssa)
    obtain ⟨s₂, indexDs, s₃, hget₁, hbytes⟩ := arrayIndex_some hget hindex
    have hstands := stands_new (checkBounds B dims s₃ (some bytes)) raw' ds'
      (offset' + slip E B rand fuel op0 s) op0.codeBits
    have hslip : slip E B rand fuel (.arrayRef raw op0 op1 dims) s =
        slip E B rand fuel op0 s + dims.elemSize * BITS_PER_UNIT *
          (bytesNat bytes - dims.indexType.value bytes) := by
      rw [slip, hindex]
      rfl
    rw [hslip]
    refine hstands.result raw _ ?_ (index_dvd B dims bytes offset' (slip E B rand fuel op0 s))
    rw [getDsViaTree, hget]
    simp only [hget₁, hbytes]
    rfl

/-- What a pointer points at: the address is read, and nothing is lost of the offset. -/
theorem memRef_ref {raw : Nat} {op0 : DsTree} {info : MemRefInfo} {s : TreeState} {ds : Nat}
    {offset : Int} (h : placeOf E B rand fuel (.memRef raw op0 info) s = some (ds, offset)) :
    ∃ s' ptr, getDsViaTree E B rand fuel (.memRef raw op0 info) s = some (s', some ptr) ∧
      RefersTo (.memRef raw op0 info) s' ptr ds
        (offset + slip E B rand fuel (.memRef raw op0 info) s) := by
  rw [placeOf] at h
  split at h
  · rename_i h₂ ds₁ offset₁ bits₁ hpointee
    obtain ⟨⟨ds', offset'⟩, hflat, heq⟩ := Option.map_eq_some_iff.mp h
    cases heq
    obtain ⟨s₁, tmp, s₂, locs, hget, hread, haddr, rfl⟩ := pointee_some hpointee
    have hstands := stands_held (s := s₂) hflat
    have hslip : slip E B rand fuel (.memRef raw op0 info) s = 0 := rfl
    rw [hslip]
    refine hstands.result raw (info.offset * BITS_PER_UNIT + offset₁) ?_ ⟨0, by omega⟩
    rw [getDsViaTree, hget]
    simp only [memRefTo]
    rw [readDs_addr E rand fuel hread haddr]
    simp only [haddr]
    rfl
  · cases h

/-- **The reference for a nest**: it has the offset of the object and what `slip` adds. -/
theorem getDsViaTree_ref (t : DsTree) : ∀ {s : TreeState} {ds : Nat} {offset : Int},
    placeOf E B rand fuel t s = some (ds, offset) →
      ∃ s' ptr, getDsViaTree E B rand fuel t s = some (s', some ptr) ∧
        RefersTo t s' ptr ds (offset + slip E B rand fuel t s) := by
  induction t with
  | unhandled => intro s ds offset h; cases h
  | cst v => intro s ds offset h; cases h
  | addrExpr raw op0 bits _ => intro s ds offset h; cases h
  | decl d =>
    intro s ds offset h
    cases d with
    | missing => cases h
    | external raw => cases h
    | found d initNode raw bits =>
      rw [placeOf] at h
      rw [← flatten_setNode s.heap d initNode] at h
      have hslip : slip E B rand fuel (.decl (.found d initNode raw bits)) s = 0 := rfl
      rw [hslip]
      exact (stands_held (s := { s with heap := _ }) h).result raw 0 rfl
        ⟨0, by omega⟩
  | ssaName own var defaultDef =>
    intro s ds offset h
    rw [placeOf] at h
    split at h
    · rename_i s' d hget
      refine ⟨s', .held d, hget, ?_, fun hssa => (by cases hssa)⟩
      have hslip : slip E B rand fuel (.ssaName own var defaultDef) s = 0 := rfl
      rw [hslip, Int.add_zero]
      exact stands_held h
    · cases h
  | componentRef raw op0 op1 ih =>
    intro s ds offset h
    rw [placeOf] at h
    obtain ⟨⟨ds', offset'⟩, hplace, heq⟩ := Option.map_eq_some_iff.mp h
    cases heq
    obtain ⟨s', ptr, hget, hstands, -⟩ := ih hplace
    refine hstands.result raw _ (by rw [getDsViaTree, hget]; rfl) ?_
    rw [slip]
    exact ⟨0, by omega⟩
  | bitFieldRef raw op0 op1 op2 ih =>
    intro s ds offset h
    rw [placeOf] at h
    obtain ⟨⟨ds', offset'⟩, hplace, heq⟩ := Option.map_eq_some_iff.mp h
    cases heq
    obtain ⟨s', ptr, hget, hstands, -⟩ := ih hplace
    refine hstands.result raw _ (by rw [getDsViaTree, hget]; rfl) ?_
    rw [slip]
    exact ⟨0, by omega⟩
  | arrayRef raw op0 op1 dims ih _ => exact arrayRef_ref ih
  | memRef raw op0 info _ => exact memRef_ref

/-- An index of at least 32 bits is right in the 32 bits of the offset. -/
theorem index_slip_dvd (t : IntType) {bytes : List Nat} (h : 32 ≤ min t.prec (8 * bytes.length)) :
    2 ^ 32 ∣ (bytesNat bytes : Int) - t.value bytes := by
  have hwrap := wrap_sub_dvd t.signed (min t.prec (8 * bytes.length)) (bytesNat bytes)
  have hpow : (2 : Int) ^ 32 ∣ 2 ^ min t.prec (8 * bytes.length) := pow_dvd_pow 2 h
  rw [← Int.dvd_neg, Int.neg_sub]
  exact hpow.trans hwrap

/-! ## Exactness -/

variable (E B rand fuel)

/-- The reference is to the object: its data state, its offset and its size. -/
def RefersToObject (t : DsTree) (s : TreeState) (ds : Nat) (offset : Int) : Prop :=
  ∃ s' raw, getDsViaTree E B rand fuel t s =
    some (s', some (.new (.sec2 raw .ref ⟨some ds, offset, t.objectBits⟩)))

variable {E B rand fuel}

/-- An offset that fits is stored right if what is added to it is lost in the cut. -/
theorem s32_add_eq_iff {offset : Int} (hfits : -2 ^ 31 ≤ offset ∧ offset < 2 ^ 31) (err : Int) :
    s32 (offset + err) = offset ↔ 2 ^ 32 ∣ err := by
  constructor
  · intro h
    have hdvd := s32_dvd (offset + err)
    rw [h] at hdvd
    omega
  · intro h
    rw [s32_of_dvd (by omega : 2 ^ 32 ∣ offset + err - offset)]
    exact Int.bmod_eq_of_le_mul_two (by omega) (by omega)

/-- **A nest of accessors gets the reference to its object exactly when the slips in the offset add
up to a multiple of 2^32 and the width that is stored is the size of the object.** -/
theorem reference_exact (t : DsTree) (hssa : t.isSsaName = false) (s : TreeState) (ds : Nat)
    (offset : Int) (hplace : placeOf E B rand fuel t s = some (ds, offset))
    (hfits : -2 ^ 31 ≤ offset ∧ offset < 2 ^ 31) :
    RefersToObject E B rand fuel t s ds offset ↔
      2 ^ 32 ∣ slip E B rand fuel t s ∧ t.codeBits = t.objectBits := by
  obtain ⟨s', ptr, hget, -, hnew⟩ := getDsViaTree_ref t hplace
  obtain ⟨raw, rfl⟩ := hnew hssa
  rw [← s32_add_eq_iff hfits]
  constructor
  · rintro ⟨s₁, raw₁, hget₁⟩
    rw [hget] at hget₁
    simp only [Option.some.injEq, Prod.mk.injEq, DsPtr.new.injEq, DataStateVal.sec2.injEq,
      DataStateValRef.mk.injEq, true_and] at hget₁
    exact hget₁.2.2
  · rintro ⟨hoffset, hbits⟩
    refine ⟨s', raw, ?_⟩
    rw [hget, hoffset, hbits]

/-- One variable of 64 bits, whose data state is not initialised. -/
def oneVar : TreeState := ⟨fun _ => .unk 0, 1, false, false, []⟩

/-- The nodes are integers of 4 bytes. -/
def intEnv : DataEnv := plainEnv (.number .intCst ⟨4, by decide⟩)

/-- `v.f` of the variable. -/
theorem reference_exact_oneVar :
    RefersToObject intEnv .plain (fun _ => 0) 0
        (.componentRef 1 (.decl (.found 0 none 0 64)) ⟨some 4, some 0, 32, 32⟩) oneVar 0 32 ↔
      2 ^ 32 ∣ slip intEnv .plain (fun _ => 0) 0
        (.componentRef 1 (.decl (.found 0 none 0 64)) ⟨some 4, some 0, 32, 32⟩) oneVar ∧
          u32 32 = 32 :=
  reference_exact _ rfl oneVar 0 32 rfl (by decide)

/-- `BIT_FIELD_REF <v, 8, 16>` is read from bit 8, and 16 bits of it. -/
theorem bit_field_read_elsewhere :
    placeOf intEnv .plain (fun _ => 0) 0 (.bitFieldRef 1 (.decl (.found 0 none 0 64)) 8 16)
        oneVar = some (0, 16) ∧
      ¬ RefersToObject intEnv .plain (fun _ => 0) 0
        (.bitFieldRef 1 (.decl (.found 0 none 0 64)) 8 16) oneVar 0 16 := by
  refine ⟨rfl, ?_⟩
  rintro ⟨s', raw, h⟩
  have hget : getDsViaTree intEnv .plain (fun _ => 0) 0
      (.bitFieldRef 1 (.decl (.found 0 none 0 64)) 8 16) oneVar =
        some (oneVar, some (.new (.sec2 1 .ref ⟨some 0, 8, 16⟩))) := rfl
  rw [hget] at h
  cases h

end Srcinv.Analysis
