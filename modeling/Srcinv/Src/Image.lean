import Mathlib.Logic.Function.Basic
import Srcinv.Core
import Srcinv.Lib.Layout

/-!
# The src image (`core/si_src.c`)

All that the program keeps of a project stands in one memory region at a fixed address.  Blocks
are cut off at `buf_cur`, the region grows in steps of `SRC_BUF_BLKSZ`, and it is written to a
file and read back as it stands.

Rounding is clib's, and the layout of the structures depends on clib's lists, so both are
parameters.
-/

namespace Srcinv.Src

open Srcinv.Lib

def SRC_BUF_START : Nat := 0x100000000

def SRC_BUF_BLKSZ : Nat := 0x10000000

def SRC_BUF_END : Nat := 0x300000000

def SRC_ID_LEN : Nat := 4

/-- `clib_round_up` to a multiple of its second argument. -/
structure RoundUp where
  up : Nat → Nat → Nat
  le_up : ∀ n a, 0 < a → n ≤ up n a
  up_lt : ∀ n a, 0 < a → up n a < n + a
  dvd_up : ∀ n a, 0 < a → a ∣ up n a

/-- Rounding by division. -/
def RoundUp.div : RoundUp where
  up n a := (n + (a - 1)) / a * a
  le_up n a h := by
    have := Nat.lt_div_mul_add (a := n + (a - 1)) h
    omega
  up_lt n a h := by
    have := Nat.div_mul_le_self (n + (a - 1)) a
    omega
  dvd_up n a _ := Nat.dvd_mul_left a _

/-- The region, with the files `src.saved` of all ids. -/
structure SrcBuf where
  mem : Nat → UInt8
  bufCur : Nat
  bufTotalSize : Nat
  srcModified : Bool
  files : List UInt8 → Option (List UInt8)

/-- What stands in the region up to `buf_cur`. -/
def SrcBuf.image (s : SrcBuf) : List UInt8 :=
  readRange s.mem SRC_BUF_START (s.bufCur - SRC_BUF_START)

variable (C : RoundUp)

/-! ## The buffer -/

/-- `buf_restore`. -/
def bufRestore (s : SrcBuf) : SrcBuf := { s with bufCur := SRC_BUF_START, bufTotalSize := 0 }

/-- Fresh pages. -/
def zeroPages (mem : Nat → UInt8) (addr len : Nat) : Nat → UInt8 := fun a =>
  if addr ≤ a ∧ a < addr + len then 0 else mem a

/-- `buf_expanded`; `mmap` refuses to map nothing. -/
def bufExpanded (s : SrcBuf) (expandLen : Nat) (mmapOk : Bool) : Option (SrcBuf × Int) :=
  let expandLen := C.up expandLen SRC_BUF_BLKSZ
  if SRC_BUF_END < SRC_BUF_START + s.bufTotalSize + expandLen then none
  else if !mmapOk || expandLen = 0 then some (s, -1)
  else some ({ s with
    mem := zeroPages s.mem (SRC_BUF_START + s.bufTotalSize) expandLen
    bufTotalSize := s.bufTotalSize + expandLen }, 0)

/-- `BUG_ON(buf_expanded(..))`. -/
def mustExpand (s : SrcBuf) (expandLen : Nat) (mmapOk : Bool) : Option SrcBuf :=
  match bufExpanded C s expandLen mmapOk with
  | some (s, 0) => some s
  | _ => none

/-- The first check of `src_buf_get`. -/
def makeRoom (s : SrcBuf) (len : Nat) (mmapOk : Bool) : Option SrcBuf :=
  if SRC_BUF_START + s.bufTotalSize < len + s.bufCur then mustExpand C s SRC_BUF_BLKSZ mmapOk
  else some s

/-- `src_buf_get`.  An object has less than 2^63 bytes, so no sum leaves 64 bits. -/
def srcBufGet (s : SrcBuf) (len : Nat) (mmapOk : Bool) : Option (SrcBuf × Nat) :=
  match makeRoom C s len mmapOk with
  | none => none
  | some s =>
    if SRC_BUF_START + s.bufTotalSize < len + s.bufCur then none
    else some ({ s with bufCur := C.up (s.bufCur + len) 8, srcModified := true }, s.bufCur)

/-! ## The layout -/

/-- Where the structures of an image stand: the resfiles and sibufs that a walk over the lists of
    `struct src` visits, the offsets of the fields that a load resets, and what it writes into
    list heads. -/
structure SrcLayout where
  resfiles : List UInt8 → List Nat
  sibufs : List UInt8 → List Nat
  fd : Nat
  needUnload : Nat
  needUnloadBit : UInt8
  users : Nat
  sibufMemUsage : Nat
  globalDataRwStates : Nat
  srcId : Nat
  initHead : Nat → List UInt8
  rwStates : List UInt8 → List UInt8
  sizeofSrc : Nat
  sizeofSrc_pos : 0 < sizeofSrc
  sizeofSrc_le : sizeofSrc ≤ SRC_BUF_BLKSZ

/-- A layout without resfiles and sibufs. -/
def bareLayout : SrcLayout where
  resfiles _ := []
  sibufs _ := []
  fd := 0
  needUnload := 0
  needUnloadBit := 1
  users := 0
  sibufMemUsage := 8
  globalDataRwStates := 16
  srcId := 24
  initHead _ := []
  rwStates _ := []
  sizeofSrc := 32
  sizeofSrc_pos := by decide
  sizeofSrc_le := by decide

variable (L : SrcLayout)

/-- The string `si->src_id`. -/
def srcIdOf (mem : Nat → UInt8) : List UInt8 :=
  (readRange mem (SRC_BUF_START + L.srcId) PATH_MAX).takeWhile (· ≠ 0)

/-- The `memcpy` of a new id. -/
def setSrcId (mem : Nat → UInt8) (id : List UInt8) : Nat → UInt8 :=
  blit mem (SRC_BUF_START + L.srcId) ((id ++ [0]).take SRC_ID_LEN)

/-- `need_unload = 0`. -/
def clearNeedUnload (mem : Nat → UInt8) (sibuf : Nat) : Nat → UInt8 :=
  Function.update mem (sibuf + L.needUnload) (mem (sibuf + L.needUnload) &&& ~~~L.needUnloadBit)

/-- What a load writes into the image it has read: `src_init`, the two loops and the counter. -/
def resetFields (image : List UInt8) (mem : Nat → UInt8) : Nat → UInt8 :=
  let mem := blit mem (SRC_BUF_START + L.globalDataRwStates) (L.rwStates image)
  let mem := (L.resfiles image).foldl (fun mem rf => blit mem (rf + L.fd) [255, 255, 255, 255]) mem
  let mem := (L.sibufs image).foldl (fun mem b =>
    blit (clearNeedUnload L mem b) (b + L.users) (L.initHead (b + L.users))) mem
  blit mem (SRC_BUF_START + L.sibufMemUsage) [0, 0, 0, 0]

/-! ## Flushing and loading -/

/-- What `do_flush_outfile` meets: whether the file opens, and after how many bytes the write
    fails. -/
structure FlushEnv where
  openOk : Bool
  writeErr : Option Nat

/-- `do_flush_outfile` will write. -/
def SrcBuf.writes (s : SrcBuf) : Bool := !(L.resfiles s.image).isEmpty && s.srcModified

/-- `do_flush_outfile`. -/
def doFlushOutfile (s : SrcBuf) (env : FlushEnv) : SrcBuf :=
  if !s.writes L || !env.openOk then s
  else
    let written := match env.writeErr with
      | none => s.image
      | some n => s.image.take n
    { s with files := Function.update s.files (srcIdOf L s.mem) (some written) }

/-- What `do_load_srcfile` meets: the errors of its calls, and what a failed read leaves. -/
structure LoadEnv where
  flush : FlushEnv
  openErr : Bool
  fstatErr : Bool
  mmapOk : Bool
  readErr : Option (List UInt8)
  sysinfoErr : Bool

/-- All calls succeed. -/
def LoadEnv.ok : LoadEnv := ⟨⟨true, none⟩, false, false, true, none, false⟩

/-- `do_load_srcfile` after the file is open. -/
def readSrcfile (s : SrcBuf) (file : List UInt8) (env : LoadEnv) : Option (SrcBuf × Int) :=
  if env.fstatErr then some (s, -1)
  else if SRC_BUF_END - SRC_BUF_START ≤ file.length then none
  else match mustExpand C (bufRestore s) file.length env.mmapOk with
    | none => none
    | some s =>
      match env.readErr with
      | some got => some ({ s with mem := blit s.mem SRC_BUF_START got }, -1)
      | none =>
        let mem := blit s.mem SRC_BUF_START file
        if env.sysinfoErr then some ({ s with mem }, -1)
        else some ({ s with
          mem := resetFields L file mem
          bufCur := SRC_BUF_START + file.length }, 0)

/-- `do_load_srcfile`. -/
def doLoadSrcfile (s : SrcBuf) (id : List UInt8) (env : LoadEnv) : Option (SrcBuf × Int) :=
  let s := doFlushOutfile L s env.flush
  if env.openErr then some (s, -1)
  else match s.files id with
    | none => some ({ s with mem := setSrcId L s.mem id }, 0)
    | some file => readSrcfile C L s file env

/-- The region that `si_src_setup` maps. -/
def srcSetup (files : List UInt8 → Option (List UInt8)) : SrcBuf :=
  ⟨fun _ => 0, SRC_BUF_START, SRC_BUF_BLKSZ, true, files⟩

/-! ## What the buffer operations do -/

variable {C} {L} {s s' : SrcBuf} {len : Nat} {mmapOk : Bool}

/-- The region is made of whole steps below `SRC_BUF_END`, and the cursor stands in it. -/
structure RegionInv (s : SrcBuf) : Prop where
  start_le : SRC_BUF_START ≤ s.bufCur
  cur_le : s.bufCur ≤ SRC_BUF_START + s.bufTotalSize
  le_end : SRC_BUF_START + s.bufTotalSize ≤ SRC_BUF_END
  steps : SRC_BUF_BLKSZ ∣ s.bufTotalSize

theorem mustExpand_eq (C : RoundUp) (s : SrcBuf) (len : Nat) (mmapOk : Bool) :
    mustExpand C s len mmapOk =
      if SRC_BUF_START + s.bufTotalSize + C.up len SRC_BUF_BLKSZ ≤ SRC_BUF_END ∧
        mmapOk = true ∧ C.up len SRC_BUF_BLKSZ ≠ 0 then
        some { s with
          mem := zeroPages s.mem (SRC_BUF_START + s.bufTotalSize) (C.up len SRC_BUF_BLKSZ)
          bufTotalSize := s.bufTotalSize + C.up len SRC_BUF_BLKSZ }
      else none := by
  unfold mustExpand bufExpanded
  by_cases hend : SRC_BUF_END < SRC_BUF_START + s.bufTotalSize + C.up len SRC_BUF_BLKSZ
  · have hend' := Nat.not_le.mpr hend
    simp [hend, hend']
  · have hend' := Nat.not_lt.mp hend
    cases mmapOk with
    | false => simp [hend]
    | true =>
      by_cases hzero : C.up len SRC_BUF_BLKSZ = 0
      · simp [hzero]
      · simp [hend, hend', hzero]

/-- A multiple is rounded to itself. -/
theorem RoundUp.up_of_dvd (C : RoundUp) {n a : Nat} (ha : 0 < a) (h : a ∣ n) : C.up n a = n := by
  have hle := C.le_up n a ha
  have hlt := C.up_lt n a ha
  have hzero : C.up n a - n = 0 :=
    Nat.eq_zero_of_dvd_of_lt (Nat.dvd_sub (C.dvd_up n a ha) h) (by omega)
  omega

/-- **Growing the region by whole steps.** -/
theorem RegionInv.expand (hi : RegionInv s) (h : mustExpand C s len mmapOk = some s') :
    RegionInv s' ∧ s'.bufCur = s.bufCur ∧ s'.files = s.files ∧
      s'.bufTotalSize = s.bufTotalSize + C.up len SRC_BUF_BLKSZ := by
  rw [mustExpand_eq] at h
  split at h
  · rename_i hok
    cases h
    refine ⟨⟨hi.start_le, ?_, ?_, ?_⟩, rfl, rfl, rfl⟩
    · have hcur := hi.cur_le
      show s.bufCur ≤ _ + (s.bufTotalSize + _)
      omega
    · have hend := hok.1
      show _ + (s.bufTotalSize + _) ≤ _
      omega
    · exact Nat.dvd_add hi.steps (C.dvd_up _ _ (by decide))
  · cases h

/-- There is room, or the region grows by one step. -/
theorem RegionInv.makeRoom (hi : RegionInv s) (h : makeRoom C s len mmapOk = some s') :
    RegionInv s' ∧ s'.bufCur = s.bufCur ∧ s'.files = s.files ∧
      s.bufTotalSize ≤ s'.bufTotalSize ∧
      (len ≤ SRC_BUF_BLKSZ → len + s.bufCur ≤ SRC_BUF_START + s'.bufTotalSize) := by
  unfold Src.makeRoom at h
  split at h
  · obtain ⟨hi', hcur, hfiles, htotal⟩ := hi.expand h
    rw [C.up_of_dvd (by decide) (Nat.dvd_refl _)] at htotal
    have hle := hi.cur_le
    exact ⟨hi', hcur, hfiles, by omega, by omega⟩
  · rename_i hroom
    cases h
    exact ⟨hi, rfl, rfl, Nat.le_refl _, fun _ => Nat.not_lt.mp hroom⟩

/-- **A block is cut off at the cursor, which moves past it.** -/
theorem RegionInv.get (hi : RegionInv s) {ret : Nat}
    (h : srcBufGet C s len mmapOk = some (s', ret)) :
    RegionInv s' ∧ ret = s.bufCur ∧ s.bufCur + len ≤ s'.bufCur ∧ s'.files = s.files ∧
      s.bufTotalSize ≤ s'.bufTotalSize ∧ 8 ∣ s'.bufCur := by
  unfold srcBufGet at h
  split at h
  · cases h
  rename_i s₁ hroom
  obtain ⟨hi₁, hcur, hfiles, htotal, -⟩ := hi.makeRoom hroom
  split at h
  · cases h
  rename_i hfits
  cases h
  have hup := C.le_up (s₁.bufCur + len) 8 (by decide)
  have hdvd := C.dvd_up (s₁.bufCur + len) 8 (by decide)
  refine ⟨⟨?_, ?_, hi₁.le_end, hi₁.steps⟩, hcur, ?_, hfiles, htotal, hdvd⟩
  · have hstart := hi₁.start_le
    show _ ≤ C.up _ _
    omega
  · -- the end of the region is a multiple of 8, so rounding does not leave it
    have hlt := C.up_lt (s₁.bufCur + len) 8 (by decide)
    obtain ⟨k, hk⟩ := hi₁.steps
    show C.up (s₁.bufCur + len) 8 ≤ SRC_BUF_START + s₁.bufTotalSize
    simp only [SRC_BUF_START, SRC_BUF_BLKSZ] at *
    omega
  · show _ ≤ C.up _ _
    omega

theorem regionInv_setup (files : List UInt8 → Option (List UInt8)) :
    RegionInv (srcSetup files) := by
  have hend : SRC_BUF_START + SRC_BUF_BLKSZ ≤ SRC_BUF_END := by decide
  exact ⟨Nat.le_refl _, Nat.le_add_right _ _, hend, Nat.dvd_refl _⟩

/-- Flushing changes the files only. -/
theorem flush_same (L : SrcLayout) (s : SrcBuf) (env : FlushEnv) :
    ∃ files, doFlushOutfile L s env = { s with files } := by
  unfold doFlushOutfile
  split
  · exact ⟨s.files, rfl⟩
  · exact ⟨_, rfl⟩

/-- The region a load leaves: the cursor stands behind the file, or the old region is there with
    another id. -/
theorem load_cases {id : List UInt8} {env : LoadEnv}
    (h : doLoadSrcfile C L s id env = some (s', 0)) :
    ((doFlushOutfile L s env.flush).files id = none ∧
      s' = { doFlushOutfile L s env.flush with mem := setSrcId L s.mem id }) ∨
    ∃ file s₁, (doFlushOutfile L s env.flush).files id = some file ∧
      file.length < SRC_BUF_END - SRC_BUF_START ∧
      mustExpand C (bufRestore (doFlushOutfile L s env.flush)) file.length env.mmapOk = some s₁ ∧
      s' = { s₁ with
        mem := resetFields L file (blit s₁.mem SRC_BUF_START file)
        bufCur := SRC_BUF_START + file.length } := by
  unfold doLoadSrcfile at h
  have hmem : (doFlushOutfile L s env.flush).mem = s.mem := by
    obtain ⟨files, heq⟩ := flush_same L s env.flush
    rw [heq]
  rw [← hmem]
  generalize doFlushOutfile L s env.flush = s₀ at h ⊢
  simp only at h
  split at h
  · cases h
  split at h
  · rename_i hnone
    cases h
    exact Or.inl ⟨hnone, rfl⟩
  rename_i file hfile
  refine Or.inr ⟨file, ?_⟩
  unfold readSrcfile at h
  split at h
  · cases h
  split at h
  · cases h
  rename_i hlen
  split at h
  · cases h
  rename_i s₁ hexp
  split at h
  · cases h
  · simp only at h
    split at h
    · cases h
    · cases h
      exact ⟨s₁, hfile, Nat.not_le.mp hlen, hexp, rfl⟩

theorem regionInv_restore (s : SrcBuf) : RegionInv (bufRestore s) := by
  have hend : SRC_BUF_START + 0 ≤ SRC_BUF_END := by decide
  exact ⟨Nat.le_refl _, Nat.le_refl _, hend, Nat.dvd_zero _⟩

/-- **A load that succeeds leaves a region in order.** -/
theorem RegionInv.load (hi : RegionInv s) {id : List UInt8} {env : LoadEnv}
    (h : doLoadSrcfile C L s id env = some (s', 0)) : RegionInv s' := by
  obtain ⟨-, rfl⟩ | ⟨file, s₁, -, -, hexp, rfl⟩ := load_cases h
  · obtain ⟨files, heq⟩ := flush_same L s env.flush
    rw [heq]
    exact ⟨hi.start_le, hi.cur_le, hi.le_end, hi.steps⟩
  · obtain ⟨hi₁, -, -, htotal⟩ := (regionInv_restore _).expand hexp
    have hup := C.le_up file.length SRC_BUF_BLKSZ (by decide)
    refine ⟨Nat.le_add_right _ _, ?_, hi₁.le_end, hi₁.steps⟩
    have hzero : (bufRestore (doFlushOutfile L s env.flush)).bufTotalSize = 0 := rfl
    show SRC_BUF_START + file.length ≤ SRC_BUF_START + s₁.bufTotalSize
    omega

end Srcinv.Src
