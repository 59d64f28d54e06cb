import Srcinv.Analysis.DataState
import Srcinv.Lib.RefCount

/-!
# Counted data states (`include/si_ds.h`, `include/si_helper.h`)

A `data_state_rw` is counted: by the addresses and references that point at it, by the list it is
in, and by the callers that hold it.  Here a data state goes away with its last reference, and what
its value points at is dropped with it.

A value that is in no data state (on the stack, or of the loop that a sample is in) is the value of
a data state that its owner holds.  `none` says that freed memory is used.
-/

namespace Srcinv.Analysis

open Srcinv.Lib

/-! ## What a value points at -/

namespace DataStateVal

mutual
/-- The data states that the addresses and references of a value point at. -/
def refs : DataStateVal → List Nat
  | unk _ => []
  | sec1 .. => []
  | sec2 _ _ v2 => v2.ds.toList
  | sec3 _ _ _ v3 => refsElems v3

def refsElems : List (DataStateVal1 DataStateVal) → List Nat
  | [] => []
  | ⟨_, _, val⟩ :: v3 => val.refs ++ refsElems v3
end

theorem refsElems_modify {v3 : List (DataStateVal1 DataStateVal)} {i : Nat}
    {e : DataStateVal1 DataStateVal} (he : v3[i]? = some e)
    (f : DataStateVal1 DataStateVal → DataStateVal1 DataStateVal) (d : Nat) :
    (refsElems (v3.modify i f)).count d + e.val.refs.count d =
      (refsElems v3).count d + (f e).val.refs.count d := by
  induction v3 generalizing i with
  | nil => cases he
  | cons e' v3 ih =>
    cases i with
    | zero =>
      cases he
      simp only [List.modify_zero_cons, refsElems, List.count_append]
      omega
    | succ i =>
      have := ih he
      simp only [List.modify_succ_cons, refsElems, List.count_append]
      omega

theorem refsElems_append (v3 w3 : List (DataStateVal1 DataStateVal)) :
    refsElems (v3 ++ w3) = refsElems v3 ++ refsElems w3 := by
  induction v3 with
  | nil => rfl
  | cons e v3 ih =>
    rw [List.cons_append, refsElems, refsElems, ih, List.append_assoc]

/-- What is put at a place points somewhere instead of what was there. -/
theorem refs_set {path : List Nat} {v u : DataStateVal} (h : v.get? path = some u)
    (w : DataStateVal) (d : Nat) :
    (v.set path w).refs.count d + u.refs.count d = v.refs.count d + w.refs.count d := by
  induction path generalizing v with
  | nil =>
    cases h
    rw [set]
    omega
  | cons i path ih =>
    cases v with
    | sec3 raw subtype total v3 =>
      obtain ⟨e, he, hu⟩ := Option.bind_eq_some_iff.mp h
      have hmod := refsElems_modify he (fun e => { e with val := e.val.set path w }) d
      have := ih hu
      simp only [set, refs] at hmod ⊢
      omega
    | _ => cases h

theorem refs_get? {path : List Nat} {v u : DataStateVal} (h : v.get? path = some u) {d : Nat}
    (hd : d ∈ u.refs) : d ∈ v.refs := by
  have hset := refs_set h (unk 0) d
  have hpos := List.count_pos_iff.mpr hd
  have hnil : (unk 0).refs.count d = 0 := rfl
  exact List.count_pos_iff.mp (by omega)

end DataStateVal

/-! ## The heap -/

/-- The kinds of bases that `ds_dup_base` makes a data state of; it stops at the others. -/
inductive DsRefType where
  | vn
  | fn
  | raw
  deriving DecidableEq, Repr

/-- `struct data_state_base`. -/
structure DsBase where
  refBase : Nat
  refType : DsRefType
  deriving DecidableEq, Repr

/-- `ds_init_base`: `ref_base` has 48 bits. -/
def dsInitBase (addr : Nat) (type : DsRefType) : DsBase := ⟨addr % 2 ^ 48, type⟩

/-- `struct data_state_rw`, its counter apart. -/
structure DsRw where
  base : DsBase
  val : DataStateVal

def DsRw.refs (ds : DsRw) : List Nat := ds.val.refs

/-- The data states that are there. -/
abbrev RwHeap : Type := RcHeap Nat DsRw

namespace RwHeap

/-- The value at a place; `none` where the data state is gone. -/
def get? (h : RwHeap) (t : DsvLoc) : Option DataStateVal :=
  (h t.ds).bind fun c => c.val.val.get? t.path

def set (h : RwHeap) (t : DsvLoc) (w : DataStateVal) : RwHeap :=
  match h t.ds with
  | none => h
  | some c =>
    Function.update h t.ds (some { c with val := { c.val with val := c.val.val.set t.path w } })

variable (fuel : Nat)

/-- `ds_hold`. -/
def dsHold (h : RwHeap) : Option Nat → Option RwHeap
  | none => some h
  | some ds => rcHold h ds

/-- `ds_drop`, and `ds_destroy` with the last reference.  The memory is freed before what the value
    points at is dropped; the code frees it after, when nothing points at it any more. -/
def dsDrop (h : RwHeap) : Option Nat → Option RwHeap
  | none => some h
  | some ds => rcDrop DsRw.refs fuel h ds

/-- `dsv_free_data`.  The type is set last in the code, which would free the value twice if the
    data state that it is in went away meanwhile. -/
def dsvFreeData (h : RwHeap) (t : DsvLoc) : Option RwHeap := do
  let v ← h.get? t
  let h' ← v.refs.foldlM (rcDrop DsRw.refs fuel) (h.set t (.unk v.raw))
  if (h' t.ds).isSome then some h' else none

/-- `dsv_alloc_data`. -/
def dsvAllocData (h : RwHeap) (t : DsvLoc) (type : ValType) : Option RwHeap := do
  let h' ← h.dsvFreeData fuel t
  let v ← h'.get? t
  some (h'.set t (v.alloc type))

/-- `ds_vref_hold_setv`, and `__ds_vref_setv` in it: whether it failed. -/
def dsVrefHoldSetv (h : RwHeap) (t : DsvLoc) (ds : Option Nat) (offset : Int) (bits : Nat) :
    Option (RwHeap × Bool) :=
  match h.get? t with
  | some (.sec2 raw type _) =>
    if type = .ref ∧ ds.map dsVal = some t then some (h, true)
    else ((h.set t (.sec2 raw type ⟨ds, offset, bits⟩)).dsHold ds).map (·, false)
  | _ => none

/-- `ds_vref_setv`. -/
def dsVrefSetv (h : RwHeap) (t : DsvLoc) (ds : Nat) (offset : Int) (bits : Nat) :
    Option (RwHeap × Bool) :=
  match h.get? (dsVal ds) with
  | none => none
  | some (.sec2 _ .ref v2) => h.dsVrefHoldSetv t v2.ds (s32 (offset + v2.offset)) bits
  | _ => h.dsVrefHoldSetv t (some ds) offset bits

/-- `dsv1_alloc` and `slist_add_tail`: the constructor at `t` gets one element more, which is not
    initialised. -/
def dsv1Add (h : RwHeap) (t : DsvLoc) (raw : Nat) (offset : Int) (bits : Nat) : Option RwHeap :=
  match h.get? t with
  | some (.sec3 raw' subtype total v3) =>
    some (h.set t (.sec3 raw' subtype total (v3 ++ [⟨offset, bits, .unk raw⟩])))
  | _ => none

/-- The body of the loop of `__dsv_copy_data`: the element `i` of `src`, as it is now, is copied and
    added to `dst`. -/
def copyElem (dst src : DsvLoc) (h : RwHeap) (i : Nat) : Option RwHeap :=
  match h.get? src with
  | some (.sec3 _ _ _ v3) => do
    let e ← v3[i]?
    let h' : RwHeap ← e.val.refs.foldlM rcHold h
    match h'.get? dst with
    | some (.sec3 raw subtype total w3) =>
      some (h'.set dst (.sec3 raw subtype total (w3 ++ [⟨e.offset, e.bits, e.val.copy⟩])))
    | _ => none
  | _ => none

/-- The rest of `__dsv_copy_data`, when `dst` was freed.  The node is set last. -/
def copyFreed (h : RwHeap) (dst src : DsvLoc) : Option (RwHeap × Bool) := do
  let d ← h.get? dst
  let s ← h.get? src
  match s with
  | .sec2 raw type v2 =>
    let (h', err) ← (h.set dst (.sec2 d.raw type ⟨none, 0, 0⟩)).dsVrefHoldSetv dst v2.ds
      v2.offset v2.bits
    if err then some (h', true) else some (h'.set dst (.sec2 raw type v2), false)
  | .sec3 raw subtype total v3 =>
    let h' ← (List.range v3.length).foldlM (copyElem dst src)
      (h.set dst (.sec3 d.raw subtype total []))
    match h'.get? dst with
    | some (.sec3 _ subtype total w3) => some (h'.set dst (.sec3 raw subtype total w3), false)
    | _ => none
  | s => some (h.set dst s.copy, false)

/-- `__dsv_copy_data`: `src` is read after `dst` was freed. -/
def dsvCopyDataForce (h : RwHeap) (dst src : DsvLoc) : Option (RwHeap × Bool) := do
  let h' ← h.dsvFreeData fuel dst
  h'.copyFreed dst src

/-- `dsv_copy_data`. -/
def dsvCopyData (h : RwHeap) (dst src : DsvLoc) : Option (RwHeap × Bool) :=
  if dst = src then some (h, false)
  else
    match h.get? dst, h.get? src with
    | some d, some s => if ¬ d.copyable s then some (h, true) else h.dsvCopyDataForce fuel dst src
    | _, _ => none

end RwHeap

/-- The operations on values.  The code points a value at a data state only after
    `dsv_alloc_data`; `dsv_init` and `dsv_fill_str_data` fill the constructors. -/
inductive DsvOp where
  | alloc (t : DsvLoc) (type : ValType)
  | add (t : DsvLoc) (raw : Nat) (offset : Int) (bits : Nat)
  | allocSetv (t : DsvLoc) (type : Sec2) (ds : Nat) (offset : Int) (bits : Nat)
  | allocHoldSetv (t : DsvLoc) (type : Sec2) (ds : Option Nat) (offset : Int) (bits : Nat)
  | copy (dst src : DsvLoc)
  | copyForce (dst src : DsvLoc)
  | freeData (t : DsvLoc)

def DsvOp.run (fuel : Nat) (h : RwHeap) : DsvOp → Option RwHeap
  | .alloc t type => h.dsvAllocData fuel t type
  | .add t raw offset bits => h.dsv1Add t raw offset bits
  | .allocSetv t type ds offset bits => do
    let h ← h.dsvAllocData fuel t (.sec2 type)
    (h.dsVrefSetv t ds offset bits).map Prod.fst
  | .allocHoldSetv t type ds offset bits => do
    let h ← h.dsvAllocData fuel t (.sec2 type)
    (h.dsVrefHoldSetv t ds offset bits).map Prod.fst
  | .copy dst src => (h.dsvCopyData fuel dst src).map Prod.fst
  | .copyForce dst src => (h.dsvCopyDataForce fuel dst src).map Prod.fst
  | .freeData t => h.dsvFreeData fuel t

/-! ## The store -/

/-- The data states and the lists that they are in.  List 0 is `si->global_data_rw_states`, every
    other one is the `data_state_list` of a `fn_list`.  `holds` is not in the code: it counts what
    the callers hold and have not dropped yet. -/
structure DsStore where
  heap : RwHeap
  next : Nat
  lists : Nat → Option (List Nat)
  nextList : Nat
  holds : Nat → Nat

namespace DsStore

/-- No data state, and no list but the global one. -/
def empty : DsStore :=
  ⟨fun _ => none, 0, Function.update (fun _ => none) 0 (some []), 1, fun _ => 0⟩

/-- `ds_rw_new`; whose reference it is the caller says. -/
def rwNew (s : DsStore) (addr : Nat) (type : DsRefType) (raw : Nat) : DsStore :=
  { s with
    heap := Function.update s.heap s.next (some ⟨1, dsInitBase addr type, .unk raw⟩)
    next := s.next + 1 }

/-- A caller holds `ds` once more. -/
def addHold (s : DsStore) (ds : Nat) : DsStore :=
  { s with holds := Function.update s.holds ds (s.holds ds + 1) }

/-- `ds_hold` by a caller. -/
def hold (s : DsStore) (ds : Nat) : Option DsStore :=
  (s.heap.dsHold (some ds)).map fun h => { s with heap := h }.addHold ds

/-- `ds_drop`; at most all data states go away. -/
def drop (s : DsStore) (ds : Nat) : Option DsStore :=
  (s.heap.dsDrop s.next (some ds)).map fun h => { s with heap := h }

/-- `slist_add_tail` -/
def link (s : DsStore) (l ds : Nat) : DsStore :=
  { s with lists := Function.update s.lists l ((s.lists l).map (· ++ [ds])) }

/-- `slist_del` -/
def unlink (s : DsStore) (l ds : Nat) : DsStore :=
  { s with lists := Function.update s.lists l ((s.lists l).map (·.erase ds)) }

/-- `__ds_find` -/
def dsFind (s : DsStore) (l addr : Nat) (type : DsRefType) : Option Nat :=
  ((s.lists l).getD []).find? fun ds => (s.heap ds).any fun c => c.val.base = ⟨addr, type⟩

/-- `fnl_ds_find`, and `__global_ds_rw_find` in list 0. -/
def fnlDsFind (s : DsStore) (l addr : Nat) (type : DsRefType) : Option (DsStore × Option Nat) :=
  match s.dsFind l addr type with
  | none => some (s, none)
  | some ds => (s.hold ds).map (·, some ds)

/-- `fnl_ds_add`.  `linkFails` is what `slist_add_tail_check` returns. -/
def fnlDsAdd (s : DsStore) (l addr : Nat) (type : DsRefType) (raw : Nat) (linkFails : Bool) :
    Option (DsStore × Option Nat) :=
  match s.dsFind l addr type with
  | some ds => (s.hold ds).map (·, some ds)
  | none =>
    if linkFails then ((s.rwNew addr type raw).drop s.next).map (·, none)
    else (((s.rwNew addr type raw).link l s.next).hold s.next).map (·, some s.next)

/-- The loop of `init_global_ds_rw` and `fn_list_new`: `ds_dup_base` of each base, with the node
    that it is of, into a list. -/
def dupBases (s : DsStore) (l : Nat) (bases : List (DsBase × Nat)) : DsStore :=
  bases.foldl (fun s b => (s.rwNew b.1.refBase b.1.refType b.2).link l s.next) s

/-- `init_global_ds_rw` when the list is empty.  `bases` are the `si->global_data_states`. -/
def initGlobal (s : DsStore) (bases : List (DsBase × Nat)) : DsStore :=
  if s.lists 0 = some [] then s.dupBases 0 bases else s

/-- `global_ds_rw_find` -/
def globalDsRwFind (s : DsStore) (bases : List (DsBase × Nat)) (addr : Nat) (type : DsRefType) :
    Option (DsStore × Option Nat) :=
  (s.initGlobal bases).fnlDsFind 0 addr type

/-- `global_ds_rw_add` -/
def globalDsRwAdd (s : DsStore) (bases : List (DsBase × Nat)) (addr : Nat) (type : DsRefType)
    (raw : Nat) (linkFails : Bool) : Option (DsStore × Option Nat) :=
  (s.initGlobal bases).fnlDsAdd 0 addr type raw linkFails

/-- `fn_list_new` -/
def fnListNew (s : DsStore) (bases : List (DsBase × Nat)) : DsStore :=
  { s with
    lists := Function.update s.lists s.nextList (some [])
    nextList := s.nextList + 1 }.dupBases s.nextList bases

/-- `fn_list_free` -/
def fnListFree (s : DsStore) (l : Nat) : Option DsStore := do
  let members ← s.lists l
  let s' ← members.foldlM (fun s ds => (s.unlink l ds).drop ds) s
  some { s' with lists := Function.update s'.lists l none }

/-- An operation on values. -/
def onVal (s : DsStore) (op : DsvOp) : Option DsStore :=
  (op.run s.next s.heap).map fun h => { s with heap := h }

/-- `ds_drop` by a caller, which holds what it drops. -/
def release (s : DsStore) (ds : Nat) : Option DsStore :=
  if s.holds ds = 0 then none
  else { s with holds := Function.update s.holds ds (s.holds ds - 1) }.drop ds

end DsStore

/-- What the callers do. -/
inductive DsrEvent where
  | rwNew (addr : Nat) (type : DsRefType) (raw : Nat)
  | hold (ds : Nat)
  | drop (ds : Nat)
  | fnlFind (l addr : Nat) (type : DsRefType)
  | fnlAdd (l addr : Nat) (type : DsRefType) (raw : Nat) (linkFails : Bool)
  | globalFind (bases : List (DsBase × Nat)) (addr : Nat) (type : DsRefType)
  | globalAdd (bases : List (DsBase × Nat)) (addr : Nat) (type : DsRefType) (raw : Nat)
      (linkFails : Bool)
  | val (op : DsvOp)
  | fnListNew (bases : List (DsBase × Nat))
  | fnListFree (l : Nat)

open DsStore in
def dsrStep (s : DsStore) : DsrEvent → Option DsStore
  | .rwNew addr type raw => some ((s.rwNew addr type raw).addHold s.next)
  | .hold ds => s.hold ds
  | .drop ds => s.release ds
  | .fnlFind l addr type => (s.fnlDsFind l addr type).map Prod.fst
  | .fnlAdd l addr type raw linkFails => (s.fnlDsAdd l addr type raw linkFails).map Prod.fst
  | .globalFind bases addr type => (s.globalDsRwFind bases addr type).map Prod.fst
  | .globalAdd bases addr type raw linkFails =>
    (s.globalDsRwAdd bases addr type raw linkFails).map Prod.fst
  | .val op => s.onVal op
  | .fnListNew bases => some (s.fnListNew bases)
  | .fnListFree l => s.fnListFree l

end Srcinv.Analysis
