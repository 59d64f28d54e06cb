import Mathlib.Data.UInt
import Srcinv.Core
import Srcinv.Lib.Layout

/-!
# Records of a resfile

A resfile is a sequence of records.  A record starts with a `struct file_content`, whose path
and command line have a length of their own, then comes the payload (the copied objects), then
the object table.  The header and the table are kept as structures, the path, the command line
and the payload as bytes.

`Record.WellFormed` is what the collector establishes and what the analysis keeps: the payload
ends where the table starts, the whole fits in `total_size`, and either no object has an address
yet or all have the offsets that the sizes give.
-/

namespace Srcinv

open Srcinv.Lib

/-- `struct file_content`, without the bytes of the path. -/
structure FileContent where
  totalSize : Nat
  objsOffs : Nat
  objsCnt : Nat
  gccVerMajor : Nat
  gccVerMinor : Nat
  pathLen : Nat
  cmdLen : Nat
  srcrootLen : Nat
  type : SiType
  deriving DecidableEq, Repr

/-- Where `path` stands in `struct file_content`. -/
def PATH_OFFS : Nat := 22

/-- `sizeof(struct file_content)`: 22 bytes of fields, the path, two bytes of padding. -/
def SIZEOF_FILE_CONTENT : Nat := 4120

def SIZEOF_FILE_OBJ : Nat := 32

/-- `fc_cmdptr`, from the start of the record. -/
def fcCmdptr (fc : FileContent) : Nat := SIZEOF_FILE_CONTENT - PATH_MAX + fc.pathLen

/-- `fc_pldptr`, from the start of the record. -/
def fcPldptr (fc : FileContent) : Nat := SIZEOF_FILE_CONTENT - PATH_MAX + fc.pathLen + fc.cmdLen

/-- `struct file_obj`: the two addresses have 48 bits, the sizes 32, the index 16. -/
structure FileObj where
  fakeAddr : Nat
  realAddr : Nat
  size : Nat
  offs : Nat
  gccGlobalVaridx : Nat
  deriving DecidableEq, Repr

/-- An entry of the zeroed `objs` array. -/
def FileObj.zero : FileObj := ⟨0, 0, 0, 0, 0⟩

/-- A record, as it stands in a resfile or mapped into memory. -/
structure Record where
  hdr : FileContent
  bytes : Nat → UInt8
  objs : List FileObj

/-- The sizes of the objects, in table order. -/
def Record.sizes (r : Record) : List Nat := r.objs.map FileObj.size

/-- A table before and after its first preview. -/
def Stamped (objs : List FileObj) : Prop :=
  (∀ o ∈ objs, o.realAddr = 0) ∨
    ∀ i (hi : i < objs.length), objs[i].offs = startOf (objs.map FileObj.size) i

/-- An address in a table comes with its offset. -/
theorem Stamped.offs {objs : List FileObj} (h : Stamped objs) (i : Nat) (hi : i < objs.length)
    (hne : objs[i].realAddr ≠ 0) : objs[i].offs = startOf (objs.map FileObj.size) i := by
  rcases h with h | h
  · exact absurd (h _ (List.getElem_mem hi)) hne
  · exact h i hi

/-- What holds of every record, before and after previews. -/
structure Record.WellFormed (r : Record) : Prop where
  count : r.objs.length = r.hdr.objsCnt
  payload_end : fcPldptr r.hdr + r.sizes.sum ≤ r.hdr.objsOffs
  table_inside : r.hdr.objsOffs + r.objs.length * SIZEOF_FILE_OBJ ≤ r.hdr.totalSize
  total_pos : 0 < r.hdr.totalSize
  total_le : r.hdr.totalSize ≤ MAX_SIZE_PER_FILE
  stamped : Stamped r.objs

theorem Record.WellFormed.sum_lt {r : Record} (h : r.WellFormed) : r.sizes.sum < 2 ^ 32 := by
  have hpay := h.payload_end
  have htab := h.table_inside
  have htot := h.total_le
  simp only [MAX_SIZE_PER_FILE] at htot
  omega

/-- A record together with its well-formedness. -/
abbrev FileRecord := { r : Record // r.WellFormed }

end Srcinv
