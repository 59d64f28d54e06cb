import Srcinv.Collect.Writer
import Srcinv.Analysis.Preview

/-!
# From the collector's record to the previewed one

The collector and the preview compute the layout of a record on their own: the collector moves
`mem_ptr` through the buffer, the preview adds up the sizes in the table.

* `preview_recovers` — for every record the collector writes, the addresses that a preview
  computes are those at which the mapped record holds the bytes of the objects.
-/

namespace Srcinv

open Srcinv.Lib Srcinv.Collect Srcinv.Analysis

/-- The end of the addresses that `mmap` gives to a user process. -/
def USER_ADDR_MAX : Nat := 2 ^ 47

/-- A record can be mapped at `load`, an address that the previews hand out. -/
def Mappable (load : Nat) (r : Record) : Prop :=
  RESFILE_BUF_START ≤ load ∧ load + r.hdr.totalSize ≤ USER_ADDR_MAX

/-- The previewed record `r`, mapped at `load`, gives back the objects `parts` that the collector
    `c` copied. -/
structure Recovers (parts : List (List UInt8)) (c : Collector) (load : Nat) (b : Sibuf)
    (r : Record) : Prop where
  payload_start : b.payload = load + c.memPtrStart
  payload_len : b.pldlen = c.memPtr - c.memPtrStart
  count : b.objCnt = parts.length
  table : r.objs.length = parts.length
  offs : ∀ i (hi : i < r.objs.length), r.objs[i].offs = startOf r.sizes i
  address : ∀ i (hi : i < r.objs.length), r.objs[i].realAddr = b.payload + r.objs[i].offs
  bytes : ∀ i (hi : i < r.objs.length) (hp : i < parts.length),
    readRange (mapped load r) r.objs[i].realAddr r.objs[i].size = parts[i]
  apart : ∀ i j (hi : i < r.objs.length) (hj : j < r.objs.length), i < j →
    r.objs[i].realAddr + r.objs[i].size ≤ r.objs[j].realAddr
  inside : ∀ i (hi : i < r.objs.length),
    b.payload ≤ r.objs[i].realAddr ∧ r.objs[i].realAddr + r.objs[i].size ≤ b.payload + b.pldlen

/-- A mapped record reads like the record in the file. -/
theorem readRange_mapped (load : Nat) (r : Record) (off len : Nat) :
    readRange (mapped load r) (load + off) len = readRange r.bytes off len := by
  simp [readRange, mapped, Nat.add_assoc]

/-- What a preview leaves in the entries of a table without addresses. -/
theorem preview_fresh (rf fileOffs : Nat) {load : Nat} {r : Record} (hr : r.WellFormed)
    (hfresh : ∀ o ∈ r.objs, o.realAddr = 0) (hload : Mappable load r) (i : Nat)
    (hi : i < (previewRecord rf load fileOffs r).2.objs.length) :
    (previewRecord rf load fileOffs r).2.objs[i].offs = startOf r.sizes i ∧
      (previewRecord rf load fileOffs r).2.objs[i].realAddr =
        load + fcPldptr r.hdr + startOf r.sizes i := by
  have hi' : i < r.objs.length := by simpa [previewRecord] using hi
  have hentry := fixObjs_getElem (load + fcPldptr r.hdr) hr.stamped hr.sum_lt i hi'
  rw [placeAt, if_neg (not_not.mpr (hfresh _ (List.getElem_mem hi')))] at hentry
  have hstart : startOf r.sizes i ≤ r.sizes.sum := startOf_le_sum r.sizes i
  have hpay := hr.payload_end
  have htab := hr.table_inside
  have htop := hload.2
  have hlt : load + fcPldptr r.hdr + startOf r.sizes i < 2 ^ 48 := by
    simp only [USER_ADDR_MAX] at htop
    omega
  simp only [previewRecord, hentry]
  exact ⟨rfl, Nat.mod_eq_of_lt hlt⟩

/-- **The preview finds what the collector wrote**, and a second preview changes nothing. -/
theorem preview_recovers (R : Rounding) (env : CompileEnv) (ops : List WriteOp)
    (c₀ c : Collector) (r : Record) (rf load fileOffs : Nat)
    (hargs : getCompilingArgs env = some c₀) (hops : exec writeStep c₀ ops = some c)
    (hflush : nodesFlush R c = some (some r)) (hload : Mappable load r) :
    (∀ o ∈ r.objs, o.realAddr = 0) ∧
      Recovers (copied ops) c load (previewRecord rf load fileOffs r).1
        (previewRecord rf load fileOffs r).2 ∧
      ∀ rf' addr' offs',
        (previewRecord rf' addr' offs' (previewRecord rf load fileOffs r).2).2 =
          (previewRecord rf load fileOffs r).2 := by
  have hc : Holds c₀.hdr (copied ops) c := by
    simpa using holds_exec (holds_start hargs) hops
  obtain ⟨hr, hfresh⟩ := nodesFlush_wellFormed hc hflush
  obtain ⟨hbytes, hobjs, hoffs, hcnt, hpld, -⟩ := nodesFlush_eq hflush
  have hstart : c.memPtrStart = fcPldptr r.hdr := by rw [hc.start, hpld, hc.header]
  have hsizes : r.sizes = (copied ops).map List.length := by rw [Record.sizes, hobjs, hc.sizes]
  have hlen : r.objs.length = (copied ops).length := by
    simpa [Record.sizes] using congrArg List.length hsizes
  have hsum : c.memPtr - c.memPtrStart = r.sizes.sum := by
    rw [hc.ptr, hsizes, List.length_flatten]
    omega
  have hentry := preview_fresh rf fileOffs hr hfresh hload
  have hlen' : (previewRecord rf load fileOffs r).2.objs.length = r.objs.length := by
    simp [previewRecord]
  have hsize : ∀ i (hi : i < (previewRecord rf load fileOffs r).2.objs.length),
      ∃ hi' : i < r.sizes.length,
        (previewRecord rf load fileOffs r).2.objs[i].size = r.sizes[i] := by
    intro i hi
    have hmap : (previewRecord rf load fileOffs r).2.objs.map FileObj.size = r.sizes :=
      fixObjs_sizes _ _ _
    have hi' : i < r.sizes.length := by rw [← hmap, List.length_map]; exact hi
    refine ⟨hi', ?_⟩
    have h := List.getElem_of_eq hmap (by simpa using hi)
    rwa [List.getElem_map] at h
  refine ⟨hfresh, ⟨?_, ?_, ?_, hlen'.trans hlen, ?_, ?_, ?_, ?_, ?_⟩, ?_⟩
  · simp [previewRecord, hstart]
  · simp only [previewRecord, hoffs, hstart]
  · rw [← hlen, hobjs, ← hcnt]
    rfl
  · intro i hi
    rw [(hentry i hi).1]
    exact congrArg (startOf · i) (fixObjs_sizes _ _ _).symm
  · intro i hi
    rw [(hentry i hi).1, (hentry i hi).2]
    rfl
  · intro i hi hp
    obtain ⟨hi', hs⟩ := hsize i hi
    have hpart : r.sizes[i] = (copied ops)[i].length := by simp [hsizes]
    rw [(hentry i hi).2, hs, hpart, Nat.add_assoc, readRange_mapped, hsizes]
    show readRange r.bytes _ _ = _
    rw [hbytes, ← hstart]
    exact readRange_of_flatten hc.payload hp
  · intro i j hi hj hij
    obtain ⟨hi', hs⟩ := hsize i hi
    rw [(hentry i hi).2, (hentry j hj).2, hs]
    have := startOf_add_le hi' hij
    omega
  · intro i hi
    obtain ⟨hi', hs⟩ := hsize i hi
    rw [(hentry i hi).2, hs]
    have hle := startOf_add_le_sum hi'
    simp only [previewRecord, hoffs, ← hstart]
    omega
  · -- every address is set now, so a later preview skips every entry
    intro rf' addr' offs'
    refine previewRecord_addressed rf' addr' offs' ?_
    intro o ho
    obtain ⟨i, hi, rfl⟩ := List.getElem_of_mem ho
    rw [(hentry i hi).2]
    have hlow := hload.1
    simp only [RESFILE_BUF_START] at hlow
    omega

/-- `/r` and `a.c`, with one option that is kept and one that is dropped. -/
def smallEnv : CompileEnv where
  isKernel := true
  gccVer := 9
  gccVerMinor := 2
  getcwd := some [47, 114]
  mainInputFilename := [97, 46, 99]
  collectGccOptions := some ([39, 45, 79, 50, 39, 32, 39] ++ FPLUGIN ++ [39])

/-- Two objects, a location, a NULL global and a tag. -/
def smallOps : List WriteOp :=
  [.write 0x1000 [1, 2, 3], .loc [4, 5], .token 0x2000 [6] 0 7, .seen 0 1, .tag 0 2]

theorem smallEnv_args : ∃ c₀, getCompilingArgs smallEnv = some c₀ ∧ c₀.memPtr = 38 ∧
    c₀.memPtrStart = 38 ∧ c₀.objs = [] ∧ c₀.xlocAddr % 0x1000000000000 ≠ 0 := by
  simp [getCompilingArgs, smallEnv, copyArgs, strchr, FPLUGIN, QUOTE, SLASH, ArgCopy.push,
    fcPldptr, fcCmdptr, SIZEOF_FILE_CONTENT, PATH_MAX]

theorem smallOps_exec {c₀ : Collector} (hptr : c₀.memPtr = 38) (hobjs : c₀.objs = [])
    (hxloc : c₀.xlocAddr % 0x1000000000000 ≠ 0) :
    ∃ c, exec writeStep c₀ smallOps = some c ∧ c.memPtr = 45 ∧
      c.memPtrStart = c₀.memPtrStart ∧ c.objs.length = 4 ∧
      (c.objs.findIdx fun o => decide (o.fakeAddr = 0) && decide (o.gccGlobalVaridx = 0)) = 4 := by
  simp [smallOps, exec, writeStep, memWrite, memWriteLoc, cppToken, memWriteLastChar, globalSeen,
    tagGlobal, insertObj, copyOut, hptr, hobjs, hxloc, FileObj.zero, MAX_OBJS_PER_FILE,
    MAX_SIZE_PER_FILE, List.findIdx_cons]

/-- A small collection from start to preview. -/
theorem preview_recovers_small : ∃ c₀ c r, getCompilingArgs smallEnv = some c₀ ∧
    exec writeStep c₀ smallOps = some c ∧ nodesFlush Rounding.page c = some (some r) ∧
      Recovers [[1, 2, 3], [4, 5], [6, 7], []] c RESFILE_BUF_START
        (previewRecord 0 RESFILE_BUF_START 0 r).1 (previewRecord 0 RESFILE_BUF_START 0 r).2 := by
  obtain ⟨c₀, hargs, hptr₀, hstart₀, hobjs₀, hxloc₀⟩ := smallEnv_args
  obtain ⟨c, hops, hptr, hstart, hlen, hidx⟩ := smallOps_exec hptr₀ hobjs₀ hxloc₀
  have hflush : ∃ r, nodesFlush Rounding.page c = some (some r) ∧ r.hdr.totalSize = 4096 := by
    simp [nodesFlush, hptr, hstart, hstart₀, hidx, hlen, Rounding.page, MAX_OBJS_PER_FILE,
      MAX_SIZE_PER_FILE, PAGE_SIZE, SIZEOF_FILE_OBJ]
  obtain ⟨r, hflush, htotal⟩ := hflush
  have hload : Mappable RESFILE_BUF_START r := by
    rw [Mappable, htotal]
    decide
  exact ⟨c₀, c, r, hargs, hops, hflush,
    (preview_recovers Rounding.page smallEnv smallOps c₀ c r 0 RESFILE_BUF_START 0 hargs hops
      hflush hload).2.1⟩

end Srcinv
