import Mathlib.Data.List.Basic
import Srcinv.Record

/-!
# Preview of one record (`resfile_preview` in `analysis/resfile.c`)

A preview gives every object of a record its `offs` in the payload and its `real_addr` at the
place where the record is going to be mapped, and skips the objects that already have one.

* `fixObjs_getElem` — what the loop over a table leaves in each entry: a sum of sizes, although
  the code only ever looks at the previous entry.
* `fixObjs_addressed` — a table whose objects all have an address stays as it is.
* `previewRecord_inside_iff` — when the addresses end up in the range of the record.
-/

namespace Srcinv.Analysis

open Srcinv.Lib

/-- The fields of a `struct sibuf` that a preview fills in.  `rf` is the number of the resfile. -/
structure Sibuf where
  rf : Nat
  loadAddr : Nat
  totalLen : Nat
  offsOfResfile : Nat
  payload : Nat
  pldlen : Nat
  objs : Nat
  objCnt : Nat
  deriving DecidableEq, Repr

/-- The address range of a sibuf contains `addr`. -/
abbrev Sibuf.Contains (b : Sibuf) (addr : Nat) : Prop :=
  InRange Sibuf.loadAddr Sibuf.totalLen b addr

/-- `objs[i-1].offs + objs[i-1].size` as a `uint32_t`, 0 for the first entry. -/
def nextOffs : Option FileObj → Nat
  | none => 0
  | some prev => (prev.offs + prev.size) % 2 ^ 32

/-- One entry of the loop over the table, given the entry before it. -/
def fixObj (payload : Nat) (prev : Option FileObj) (o : FileObj) : FileObj :=
  if o.realAddr ≠ 0 then o
  else { o with offs := nextOffs prev, realAddr := (payload + nextOffs prev) % 2 ^ 48 }

/-- The loop over the table. -/
def fixObjs (payload : Nat) : Option FileObj → List FileObj → List FileObj
  | _, [] => []
  | prev, o :: os => fixObj payload prev o :: fixObjs payload (some (fixObj payload prev o)) os

/-- One iteration of `resfile_preview`: the new sibuf and the record as it is left in the file. -/
def previewRecord (rf addr fileOffs : Nat) (r : Record) : Sibuf × Record :=
  let payload := addr + fcPldptr r.hdr
  ({ rf := rf
     loadAddr := addr
     totalLen := r.hdr.totalSize
     offsOfResfile := fileOffs
     payload := payload
     pldlen := r.hdr.objsOffs - fcPldptr r.hdr
     objs := addr + r.hdr.objsOffs
     objCnt := r.hdr.objsCnt },
   { r with objs := fixObjs payload none r.objs })

/-- The byte at `addr` once the record is mapped at `loadAddr`. -/
def mapped (loadAddr : Nat) (r : Record) (addr : Nat) : UInt8 := r.bytes (addr - loadAddr)

/-! ## The loop over a table -/

@[simp] theorem fixObj_size (payload : Nat) (prev : Option FileObj) (o : FileObj) :
    (fixObj payload prev o).size = o.size := by
  unfold fixObj
  split <;> rfl

@[simp] theorem fixObjs_length (payload : Nat) :
    ∀ (prev : Option FileObj) (objs : List FileObj),
      (fixObjs payload prev objs).length = objs.length
  | _, [] => rfl
  | _, _ :: os => by simp [fixObjs, fixObjs_length payload _ os]

@[simp] theorem fixObjs_sizes (payload : Nat) : ∀ (prev : Option FileObj) (objs : List FileObj),
    (fixObjs payload prev objs).map FileObj.size = objs.map FileObj.size
  | _, [] => rfl
  | _, _ :: os => by simp [fixObjs, fixObjs_sizes payload _ os]

/-- A table whose objects all have an address stays as it is. -/
theorem fixObjs_addressed (payload : Nat) : ∀ (prev : Option FileObj) (objs : List FileObj),
    (∀ o ∈ objs, o.realAddr ≠ 0) → fixObjs payload prev objs = objs
  | _, [], _ => rfl
  | prev, o :: os, h => by
    have ho : fixObj payload prev o = o := if_pos (h o List.mem_cons_self)
    rw [fixObjs, ho, fixObjs_addressed payload _ os fun o' ho' => h o' (List.mem_cons_of_mem o ho')]

/-- The entry an address of which is fixed now: at `n` in the payload. -/
def placeAt (payload n : Nat) (o : FileObj) : FileObj :=
  if o.realAddr ≠ 0 then o else { o with offs := n, realAddr := (payload + n) % 2 ^ 48 }

/-- What the loop leaves in each entry when the entries so far end at `n`. -/
theorem fixObjs_from (payload : Nat) : ∀ (objs : List FileObj) (prev : Option FileObj) (n : Nat),
    nextOffs prev = n → n + (objs.map FileObj.size).sum < 2 ^ 32 →
    (∀ i (hi : i < objs.length), objs[i].realAddr ≠ 0 →
      objs[i].offs = n + startOf (objs.map FileObj.size) i) →
    ∀ i (hi : i < objs.length) (hi' : i < (fixObjs payload prev objs).length),
      (fixObjs payload prev objs)[i] =
        placeAt payload (n + startOf (objs.map FileObj.size) i) objs[i]
  | [], _, _, _, _, _, i, hi, _ => absurd hi (Nat.not_lt_zero i)
  | o :: os, prev, n, hn, hsum, hst, i, hi, hi' => by
    simp only [List.map_cons, List.sum_cons] at hsum
    cases i with
    | zero =>
      simp [fixObjs, fixObj, placeAt, hn]
    | succ i =>
      -- fixed now or before, this entry has offset `n`, so the next one starts past it
      have hoffs : (fixObj payload prev o).offs = n := by
        unfold fixObj
        split
        · rename_i hne
          simpa using hst 0 (Nat.zero_lt_succ _) hne
        · exact hn
      have hnext : nextOffs (some (fixObj payload prev o)) = n + o.size := by
        simp only [nextOffs, hoffs, fixObj_size]
        exact Nat.mod_eq_of_lt (by omega)
      have hrec := fixObjs_from payload os _ _ hnext (by omega)
        (fun j hj hne => by
          have h := hst (j + 1) (Nat.succ_lt_succ hj) hne
          simp only [List.getElem_cons_succ, List.map_cons, startOf_cons_succ] at h
          omega)
        i (Nat.lt_of_succ_lt_succ hi) (Nat.lt_of_succ_lt_succ hi')
      simp only [fixObjs, List.getElem_cons_succ, List.map_cons, startOf_cons_succ, hrec,
        Nat.add_assoc]

/-- **The loop over a table computes the sums of the sizes.** -/
theorem fixObjs_getElem (payload : Nat) {objs : List FileObj} (hst : Stamped objs)
    (hsum : (objs.map FileObj.size).sum < 2 ^ 32) (i : Nat) (hi : i < objs.length)
    (hi' : i < (fixObjs payload none objs).length) :
    (fixObjs payload none objs)[i] =
      placeAt payload (startOf (objs.map FileObj.size) i) objs[i] := by
  have h := fixObjs_from payload objs none 0 rfl (by simpa using hsum)
    (fun j hj hne => by simpa using hst.offs j hj hne) i hi hi'
  simpa using h

/-! ## One record -/

/-- A preview keeps records well-formed. -/
theorem previewRecord_wellFormed (rf addr fileOffs : Nat) {r : Record} (h : r.WellFormed) :
    (previewRecord rf addr fileOffs r).2.WellFormed := by
  refine ⟨?_, ?_, ?_, h.total_pos, h.total_le, ?_⟩
  · simpa [previewRecord] using h.count
  · simpa [previewRecord, Record.sizes] using h.payload_end
  · simpa [previewRecord] using h.table_inside
  · refine Or.inr fun i hi => ?_
    have hi' : i < r.objs.length := by simpa [previewRecord] using hi
    simp only [previewRecord, fixObjs_sizes]
    rw [fixObjs_getElem _ h.stamped h.sum_lt i hi']
    unfold placeAt
    split
    · rename_i hold
      exact h.stamped.offs i hi' hold
    · rfl

/-- Every object address recorded in the table lies in the range of the sibuf.  The entry of a NULL
    global stands for no object. -/
def TableInside (b : Sibuf) (r : Record) : Prop :=
  ∀ o ∈ r.objs, o.fakeAddr ≠ 0 → b.Contains o.realAddr

/-- The addresses already in the table belong to the range `[addr, addr + total_size)`, and the
    ones still to be given have 48 bits. -/
def Fits (addr : Nat) (r : Record) : Prop :=
  ∀ i (hi : i < r.objs.length), r.objs[i].fakeAddr ≠ 0 →
    if r.objs[i].realAddr ≠ 0 then
      addr ≤ r.objs[i].realAddr ∧ r.objs[i].realAddr < addr + r.hdr.totalSize
    else addr + fcPldptr r.hdr + startOf r.sizes i < 2 ^ 48

/-- **When a preview leaves the addresses inside the record.** -/
theorem previewRecord_inside_iff (rf addr fileOffs : Nat) {r : Record} (h : r.WellFormed) :
    TableInside (previewRecord rf addr fileOffs r).1 (previewRecord rf addr fileOffs r).2 ↔
      Fits addr r := by
  have hfake : ∀ i (hi : i < r.objs.length)
      (hi' : i < (fixObjs (addr + fcPldptr r.hdr) none r.objs).length),
      (fixObjs (addr + fcPldptr r.hdr) none r.objs)[i].fakeAddr = r.objs[i].fakeAddr := by
    intro i hi hi'
    rw [fixObjs_getElem _ h.stamped h.sum_lt i hi]
    unfold placeAt
    split <;> rfl
  have hentry : ∀ i (hi : i < r.objs.length)
      (hi' : i < (fixObjs (addr + fcPldptr r.hdr) none r.objs).length),
      (previewRecord rf addr fileOffs r).1.Contains
        (fixObjs (addr + fcPldptr r.hdr) none r.objs)[i].realAddr ↔
      if r.objs[i].realAddr ≠ 0 then
        addr ≤ r.objs[i].realAddr ∧ r.objs[i].realAddr < addr + r.hdr.totalSize
      else addr + fcPldptr r.hdr + startOf r.sizes i < 2 ^ 48 := by
    intro i hi hi'
    rw [fixObjs_getElem _ h.stamped h.sum_lt i hi]
    unfold placeAt
    split
    · rfl
    · -- a truncated address is below the range, an exact one inside it
      have hstart : startOf r.sizes i ≤ r.sizes.sum := startOf_le_sum r.sizes i
      have hpay := h.payload_end
      have htab := h.table_inside
      have htot := h.total_le
      have hpos : 0 < r.objs.length := Nat.lt_of_le_of_lt (Nat.zero_le i) hi
      simp only [previewRecord, Sibuf.Contains, InRange, SIZEOF_FILE_OBJ, MAX_SIZE_PER_FILE] at *
      rw [show r.objs.map FileObj.size = r.sizes from rfl]
      omega
  constructor
  · intro hin i hi hne
    have hi' : i < (previewRecord rf addr fileOffs r).2.objs.length := by
      simpa [previewRecord] using hi
    exact (hentry i hi hi').mp
      (hin _ (List.getElem_mem hi') (by rw [← hfake i hi hi'] at hne; exact hne))
  · intro hfit o ho hne
    obtain ⟨i, hi, rfl⟩ := List.getElem_of_mem ho
    have hi' : i < r.objs.length := by simpa [previewRecord] using hi
    exact (hentry i hi' hi).mpr (hfit i hi' (by rw [← hfake i hi' hi]; exact hne))

/-- A record whose objects all have an address is not changed by another preview. -/
theorem previewRecord_addressed (rf addr fileOffs : Nat) {r : Record}
    (h : ∀ o ∈ r.objs, o.realAddr ≠ 0) : (previewRecord rf addr fileOffs r).2 = r := by
  simp [previewRecord, fixObjs_addressed _ none r.objs h]

end Srcinv.Analysis
