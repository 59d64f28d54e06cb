import Srcinv.Core
import Mathlib.Logic.Function.Basic

/-!
# Data states and their values (`include/si_core.h`, `include/si_ds.h`)

A data state is what a variable, an SSA name or a constant holds while a function is decoded.  Its
value is a tree: a constructor (a record, a union or an array) has a list of elements, each a
value; an address (`DSVT_ADDR`) and a reference (`DSVT_REF`, a value that is stored elsewhere)
point at another data state.

The operations work on a value in place, wherever in the tree of a data state it is.  Counting the
pointers is not in this module: here no data state goes away.  The slist of elements of a zeroed
value is empty, and its first word is then `NULL` (`DSV_SEC1_VAL` reads it).
-/

namespace Srcinv.Analysis

/-- `BITS_PER_UNIT`. -/
def BITS_PER_UNIT : Nat := 8

/-- Conversion to `u32`. -/
def u32 (x : Int) : Nat := (x % 2 ^ 32).toNat

/-- Conversion to `s32`. -/
def s32 (x : Int) : Int := x.bmod (2 ^ 32)

/-! ## Values -/

/-- The types of section 1. -/
inductive Sec1 where
  | intCst
  | realCst
  deriving DecidableEq, Repr

/-- The types of section 2. -/
inductive Sec2 where
  | addr
  | ref
  deriving DecidableEq, Repr

/-- `struct data_state_val_ref`. -/
structure DataStateValRef where
  ds : Option Nat
  offset : Int
  bits : Nat
  deriving DecidableEq, Repr

/-- `struct data_state_val1`: an element, and its place in the constructor in bits. -/
structure DataStateVal1 (α : Type) where
  offset : Int
  bits : Nat
  val : α
  deriving DecidableEq, Repr

/-- `struct data_state_val`.  `raw` is the node it was made for; `subtype` tells a union. -/
inductive DataStateVal where
  | unk (raw : Nat)
  | sec1 (raw : Nat) (type : Sec1) (v1 : List Nat)
  | sec2 (raw : Nat) (type : Sec2) (v2 : DataStateValRef)
  | sec3 (raw : Nat) (subtype : Bool) (totalBytes : Nat) (v3 : List (DataStateVal1 DataStateVal))

/-- The type of a value that `dsv_alloc_data` makes.  The callers set `total_bytes` of a constructor
    right after the call; a value of section 1 has at least one byte, or a `BUG_ON` fires. -/
inductive ValType where
  | unk
  | sec1 (type : Sec1) (bytes : { n : Nat // 0 < n })
  | sec2 (type : Sec2)
  | sec3 (subtype : Bool) (totalBytes : Nat)

namespace DataStateVal

def raw : DataStateVal → Nat
  | unk raw => raw
  | sec1 raw _ _ => raw
  | sec2 raw _ _ => raw
  | sec3 raw _ _ _ => raw

/-- What a value of type `DSVT_REF` points at. -/
def refTarget : DataStateVal → Option Nat
  | sec2 _ .ref v2 => v2.ds
  | _ => none

/-- `DSV_TYPE(dsv) == DSVT_REF`. -/
def isRef : DataStateVal → Bool
  | sec2 _ .ref _ => true
  | _ => false

/-- `(DSV_TYPE(dsv) == DSVT_UNK) || (!DSV_SEC1_VAL(dsv))`: a constructor without elements counts as
    not initialised. -/
def isUnset : DataStateVal → Bool
  | unk _ => true
  | sec3 _ _ _ v3 => v3.isEmpty
  | _ => false

/-- The value at a path of element indices. -/
def get? : List Nat → DataStateVal → Option DataStateVal
  | [], v => some v
  | i :: path, sec3 _ _ _ v3 => v3[i]? >>= fun e => get? path e.val
  | _ :: _, _ => none

/-- The value with another one put at a path. -/
def set : DataStateVal → List Nat → DataStateVal → DataStateVal
  | _, [], w => w
  | sec3 raw subtype total v3, i :: path, w =>
    sec3 raw subtype total (v3.modify i fun e => { e with val := set e.val path w })
  | v, _ :: _, _ => v

/-- `dsv_alloc_data`.  Where the type and the size stay, the bytes are cleared in place; the value
    is the same. -/
def alloc (v : DataStateVal) : ValType → DataStateVal
  | .unk => unk v.raw
  | .sec1 type bytes => sec1 v.raw type (List.replicate bytes 0)
  | .sec2 type => sec2 v.raw type ⟨none, 0, 0⟩
  | .sec3 subtype total => sec3 v.raw subtype total []

mutual
/-- What `__dsv_copy_data` writes: the copy of a value. -/
def copy : DataStateVal → DataStateVal
  | unk raw => unk raw
  | sec1 raw type v1 => sec1 raw type v1
  | sec2 raw type v2 => sec2 raw type v2
  | sec3 raw subtype total v3 => sec3 raw subtype total (copyElems v3)

/-- The loop over the elements. -/
def copyElems : List (DataStateVal1 DataStateVal) → List (DataStateVal1 DataStateVal)
  | [] => []
  | ⟨offset, bits, val⟩ :: v3 => ⟨offset, bits, val.copy⟩ :: copyElems v3
end

mutual
/-- The copy of a value is the value. -/
theorem copy_eq : ∀ v : DataStateVal, v.copy = v
  | unk _ => rfl
  | sec1 .. => rfl
  | sec2 .. => rfl
  | sec3 _ _ _ v3 => by rw [copy, copyElems_eq v3]

theorem copyElems_eq : ∀ v3 : List (DataStateVal1 DataStateVal), copyElems v3 = v3
  | [] => rfl
  | ⟨_, _, val⟩ :: v3 => by rw [copyElems, copy_eq val, copyElems_eq v3]
end

/-- The checks of `dsv_copy_data`: a constructor is only copied over one of its subtype, and
    nothing else is copied over one. -/
def copyable (dst src : DataStateVal) : Bool :=
  match dst, src with
  | sec3 _ subtype _ _, sec3 _ subtype' _ _ => subtype = subtype'
  | sec3 .., _ => false
  | _, sec3 .. => false
  | _, _ => true

mutual
/-- `__dsv_find_constructor_elem`: the paths of the elements at a place, and whether it failed. -/
def findConstructorElem : DataStateVal → Int → Nat → List (List Nat) × Bool
  | sec3 _ subtype total v3, offset, bits =>
    if v3.isEmpty then ([], true)
    else
      let whole := if offset = 0 ∧ bits = u32 (total * BITS_PER_UNIT) then [[]] else []
      let (paths, err) := findElems subtype 0 v3 offset bits
      (whole ++ paths, err)
  | _, _, _ => ([], true)

/-- The loop over the elements.  `offset` is moved by each constructor that is gone into. -/
def findElems (subtype : Bool) (i : Nat) :
    List (DataStateVal1 DataStateVal) → Int → Nat → List (List Nat) × Bool
  | [], _, _ => ([], false)
  | ⟨fieldoffset, fieldbits, val⟩ :: v3, offset, bits =>
    if ¬ (fieldoffset ≤ offset ∧ u32 (offset + bits) ≤ u32 (fieldoffset + fieldbits)) then
      findElems subtype (i + 1) v3 offset bits
    else
      let (paths, err, offset') := match val with
        | sec3 raw subtype' total v3' =>
          let offset' := s32 (offset - fieldoffset)
          let (paths, err) := findConstructorElem (sec3 raw subtype' total v3') offset' bits
          (paths.map (i :: ·), err, offset')
        | _ =>
          if offset = fieldoffset ∧ bits = fieldbits then ([[i]], false, offset)
          else ([], true, offset)
      if err then (paths, true)
      else if subtype then
        let (paths', err') := findElems subtype (i + 1) v3 offset' bits
        (paths ++ paths', err')
      else (paths, false)
end

/-! ## Values in place -/

theorem get?_append (path path' : List Nat) (v : DataStateVal) :
    v.get? (path ++ path') = (v.get? path).bind (get? path') := by
  induction path generalizing v with
  | nil => rfl
  | cons i path ih =>
    cases v with
    | sec3 raw subtype total v3 =>
      simp only [List.cons_append, get?, Option.bind_eq_bind, Option.bind_assoc]
      exact Option.bind_congr fun e _ => ih e.val
    | _ => rfl

/-- What is put at a place is there. -/
theorem get?_set {path : List Nat} {v u : DataStateVal} (h : v.get? path = some u)
    (w : DataStateVal) : (v.set path w).get? path = some w := by
  induction path generalizing v with
  | nil => rfl
  | cons i path ih =>
    cases v with
    | sec3 raw subtype total v3 =>
      obtain ⟨e, he, hu⟩ := Option.bind_eq_some_iff.mp h
      simp only [set, get?, List.getElem?_modify, he, if_true]
      exact ih hu
    | _ => cases h

/-- What is put below a place is put into the value that is there. -/
theorem get?_set_below (path path' : List Nat) (v w : DataStateVal) :
    (v.set (path ++ path') w).get? path = (v.get? path).map fun u => u.set path' w := by
  induction path generalizing v with
  | nil => rfl
  | cons i path ih =>
    cases v with
    | sec3 raw subtype total v3 =>
      simp only [List.cons_append, set, get?, List.getElem?_modify_eq, Option.bind_eq_bind]
      cases v3[i]? with
      | none => rfl
      | some e => exact ih e.val
    | _ => rfl

/-- What does not overlap the place stays. -/
theorem get?_set_of_apart {path path' : List Nat} (h : ¬ path <+: path') (h' : ¬ path' <+: path)
    (v w : DataStateVal) : (v.set path w).get? path' = v.get? path' := by
  induction path generalizing v path' with
  | nil => exact absurd (List.nil_prefix) h
  | cons i path ih =>
    cases path' with
    | nil => exact absurd (List.nil_prefix) h'
    | cons j path' =>
      cases v with
      | sec3 raw subtype total v3 =>
        by_cases hij : i = j
        · subst hij
          rw [List.cons_prefix_cons] at h h'
          simp only [set, get?, List.getElem?_modify_eq, Option.bind_eq_bind]
          cases v3[i]? with
          | none => rfl
          | some e => exact ih (fun hp => h ⟨rfl, hp⟩) (fun hp => h' ⟨rfl, hp⟩) e.val
        · simp only [set, get?, List.getElem?_modify, hij, if_false, id_map']
      | _ => rfl

/-- Below the top the type of a value stays. -/
theorem set_cons (w : DataStateVal) (i : Nat) (path : List Nat) (v : DataStateVal) :
    (v.set (i :: path) w).refTarget = v.refTarget ∧
      (v.set (i :: path) w).isUnset = v.isUnset ∧ (v.set (i :: path) w).raw = v.raw := by
  cases v with
  | sec3 raw subtype total v3 =>
    refine ⟨rfl, ?_, rfl⟩
    cases i <;> cases v3 <;> rfl
  | _ => exact ⟨rfl, rfl, rfl⟩

end DataStateVal

/-! ## The heap -/

/-- The values of the data states. -/
abbrev DsHeap : Type := Nat → DataStateVal

/-- A pointer to a value: the data state it is in, and the way to it. -/
structure DsvLoc where
  ds : Nat
  path : List Nat
  deriving DecidableEq, Repr

/-- `&ds->val`. -/
def dsVal (ds : Nat) : DsvLoc := ⟨ds, []⟩

def DsHeap.get? (h : DsHeap) (t : DsvLoc) : Option DataStateVal := (h t.ds).get? t.path

def DsHeap.set (h : DsHeap) (t : DsvLoc) (w : DataStateVal) : DsHeap :=
  Function.update h t.ds ((h t.ds).set t.path w)

theorem get?_dsVal (h : DsHeap) {t : DsvLoc} (ht : t.path = []) : h.get? t = some (h t.ds) := by
  unfold DsHeap.get?
  rw [ht]
  rfl

theorem set_dsVal (h : DsHeap) {t : DsvLoc} (ht : t.path = []) (w : DataStateVal) :
    h.set t w = Function.update h t.ds w := by
  unfold DsHeap.set
  rw [ht]
  rfl

/-- One of two values is a part of the other. -/
def DsvLoc.Overlaps (t u : DsvLoc) : Prop :=
  t.ds = u.ds ∧ (t.path <+: u.path ∨ u.path <+: t.path)

instance (t u : DsvLoc) : Decidable (t.Overlaps u) := by
  unfold DsvLoc.Overlaps
  infer_instance

/-- A value is in an element of another one. -/
def DsvLoc.PartOf (u t : DsvLoc) : Prop := u ≠ t ∧ u.ds = t.ds ∧ t.path <+: u.path

/-- `dsv_alloc_data`. -/
def dsvAllocData (h : DsHeap) (t : DsvLoc) (type : ValType) : Option DsHeap :=
  (h.get? t).map fun v => h.set t (v.alloc type)

/-- `ds_vref_hold_setv`, and `__ds_vref_setv` in it: whether it failed.  A value that is no pointer
    has nothing to write to. -/
def dsVrefHoldSetv (h : DsHeap) (t : DsvLoc) (ds : Option Nat) (offset : Int) (bits : Nat) :
    Option (DsHeap × Bool) :=
  match h.get? t with
  | some (.sec2 raw type _) =>
    if type = .ref ∧ ds.map dsVal = some t then some (h, true)
    else some (h.set t (.sec2 raw type ⟨ds, offset, bits⟩), false)
  | _ => none

/-- `ds_vref_setv`: a pointer to a reference goes one step further. -/
def dsVrefSetv (h : DsHeap) (t : DsvLoc) (ds : Nat) (offset : Int) (bits : Nat) :
    Option (DsHeap × Bool) :=
  match h ds with
  | .sec2 _ .ref v2 => dsVrefHoldSetv h t v2.ds (s32 (offset + v2.offset)) bits
  | _ => dsVrefHoldSetv h t (some ds) offset bits

/-- `__dsv_copy_data`: whether it failed.  `dst` is freed before `src` is read, so a value copied
    over itself is lost; a copy between a value and a part of it is left out. -/
def dsvCopyDataForce (h : DsHeap) (dst src : DsvLoc) : Option (DsHeap × Bool) :=
  match h.get? dst, h.get? src with
  | some d, some s =>
    if dst = src then some (h.set dst (.unk d.raw), false)
    else if dst.Overlaps src then none
    else
      match s with
      | .sec2 raw type v2 =>
        if type = .ref ∧ v2.ds.map dsVal = some dst then
          some (h.set dst (.sec2 d.raw type ⟨none, 0, 0⟩), true)
        else some (h.set dst (.sec2 raw type v2), false)
      | s => some (h.set dst s.copy, false)
  | _, _ => none

/-- `dsv_copy_data`. -/
def dsvCopyData (h : DsHeap) (dst src : DsvLoc) : Option (DsHeap × Bool) :=
  match h.get? dst, h.get? src with
  | some d, some s =>
    if dst = src then some (h, false)
    else if ¬ DataStateVal.copyable d s then some (h, true)
    else dsvCopyDataForce h dst src
  | _, _ => none

/-! ## What the operations do -/

variable {h : DsHeap}

theorem dsVrefHoldSetv_eq {t : DsvLoc} {raw : Nat} {type : Sec2} {v2 : DataStateValRef}
    {ds : Option Nat} (hget : h.get? t = some (.sec2 raw type v2))
    (hself : ds.map dsVal ≠ some t) (offset : Int) (bits : Nat) :
    dsVrefHoldSetv h t ds offset bits =
      some (h.set t (.sec2 raw type ⟨ds, offset, bits⟩), false) := by
  unfold dsVrefHoldSetv
  rw [hget]
  simp only [hself, and_false, if_false]

theorem dsvCopyDataForce_eq {dst src : DsvLoc} {d s : DataStateVal} (hd : h.get? dst = some d)
    (hs : h.get? src = some s) (hne : dst ≠ src) (hover : ¬ dst.Overlaps src)
    (hself : s.refTarget.map dsVal ≠ some dst) :
    dsvCopyDataForce h dst src = some (h.set dst s, false) := by
  unfold dsvCopyDataForce
  rw [hd, hs]
  simp only [hne, hover, if_false]
  cases s with
  | sec2 raw type v2 =>
    cases type with
    | addr => rfl
    | ref =>
      have hself' : ¬ v2.ds.map dsVal = some dst := hself
      simp only [hself', and_false, if_false]
  | _ => simp only [DataStateVal.copy_eq]

end Srcinv.Analysis
