import Mathlib.Data.UInt
import Srcinv.Lib.Run
import Srcinv.Src.Image

/-!
# Saving the src image and loading it again

* `image_exact` — over every run, a flush and a load of the same id give the image back, later
  blocks stay clear of it, and a load that fails leaves everything as it was, exactly when the
  image does not fill the whole region, what is not written back is in the file already, and no
  load fails after it has unmapped the region.
* `failed_read_loses_image` — a read error leaves the cursor at the start of the region.
-/

namespace Srcinv.Src

open Srcinv.Lib

variable (C : RoundUp) (L : SrcLayout)

/-! ## The fields that a load resets -/

/-- The fields that are overwritten as a whole, as address and length. -/
def wholeFields (image : List UInt8) : List (Nat × Nat) :=
  (SRC_BUF_START + L.globalDataRwStates, (L.rwStates image).length) ::
  (SRC_BUF_START + L.sibufMemUsage, 4) ::
  ((L.resfiles image).map fun rf => (rf + L.fd, 4)) ++
  (L.sibufs image).map fun b => (b + L.users, (L.initHead (b + L.users)).length)

/-- The bits of a byte that a load keeps. -/
def keepBits (image : List UInt8) (a : Nat) : UInt8 :=
  if ∃ f ∈ wholeFields L image, InRange Prod.fst Prod.snd f a then 0
  else if a ∈ (L.sibufs image).map (· + L.needUnload) then ~~~L.needUnloadBit
  else 255

/-- The two memories differ in the fields only that a load of the image resets. -/
def SameBut (image : List UInt8) (mem mem' : Nat → UInt8) : Prop :=
  ∀ a, mem' a &&& keepBits L image a = mem a &&& keepBits L image a

variable {C} {L} {image : List UInt8} {mem mem' mem'' : Nat → UInt8}

theorem SameBut.refl (mem : Nat → UInt8) : SameBut L image mem mem := fun _ => rfl

theorem SameBut.trans (h : SameBut L image mem mem') (h' : SameBut L image mem' mem'') :
    SameBut L image mem mem'' := fun a => (h' a).trans (h a)

/-- Writing a whole field. -/
theorem sameBut_blit {addr : Nat} {bytes : List UInt8}
    (h : (addr, bytes.length) ∈ wholeFields L image) (mem : Nat → UInt8) :
    SameBut L image mem (blit mem addr bytes) := by
  intro a
  by_cases hin : InRange Prod.fst Prod.snd (addr, bytes.length) a
  · have hkeep : keepBits L image a = 0 := if_pos ⟨_, h, hin⟩
    simp [hkeep]
  · have hsame : blit mem addr bytes a = mem a := by
      unfold blit
      split
      · rfl
      · rename_i hlt
        have hlen : bytes.length ≤ a - addr := by
          unfold InRange at hin
          simp only at hin
          omega
        rw [List.getElem?_eq_none hlen]
        rfl
    rw [hsame]

/-- Clearing `need_unload`. -/
theorem sameBut_clear {b : Nat} (h : b ∈ L.sibufs image) (mem : Nat → UInt8) :
    SameBut L image mem (clearNeedUnload L mem b) := by
  intro a
  unfold clearNeedUnload
  by_cases ha : a = b + L.needUnload
  · subst ha
    rw [Function.update_self]
    unfold keepBits
    split
    · simp
    · have hmem : b + L.needUnload ∈ (L.sibufs image).map (· + L.needUnload) :=
        List.mem_map.mpr ⟨b, h, rfl⟩
      rw [if_pos hmem, UInt8.and_assoc, UInt8.and_self]
  · rw [Function.update_of_ne ha]

/-- A loop whose steps write fields only. -/
theorem sameBut_foldl {f : (Nat → UInt8) → Nat → (Nat → UInt8)} {xs : List Nat}
    (h : ∀ x ∈ xs, ∀ mem, SameBut L image mem (f mem x)) (mem : Nat → UInt8) :
    SameBut L image mem (xs.foldl f mem) := by
  induction xs generalizing mem with
  | nil => exact SameBut.refl mem
  | cons x xs ih =>
    exact (h x List.mem_cons_self mem).trans (ih (fun y hy => h y (List.mem_cons_of_mem x hy)) _)

/-- **A load resets its fields and nothing else.** -/
theorem sameBut_resetFields (L : SrcLayout) (image : List UInt8) (mem : Nat → UInt8) :
    SameBut L image mem (resetFields L image mem) := by
  unfold resetFields
  refine SameBut.trans (sameBut_blit ?_ _) (SameBut.trans (sameBut_foldl ?_ _)
    (SameBut.trans (sameBut_foldl ?_ _) (sameBut_blit ?_ _)))
  · simp [wholeFields]
  · intro rf hrf mem
    refine sameBut_blit ?_ mem
    simp only [wholeFields, List.mem_cons, List.mem_append, List.mem_map]
    exact Or.inl (Or.inr (Or.inr ⟨rf, hrf, rfl⟩))
  · intro b hb mem
    refine SameBut.trans (sameBut_clear hb mem) (sameBut_blit ?_ _)
    simp only [wholeFields, List.mem_cons, List.mem_append, List.mem_map]
    exact Or.inr ⟨b, hb, rfl⟩
  · simp [wholeFields]

/-! ## Runs -/

/-- The length of an object. -/
abbrev ObjLen := { len : Nat // len < 2 ^ 63 }

/-- What happens to the region: blocks are cut off, the program writes into it, `readmode` turns
    saving off and on, and the image is flushed and loaded; `reload` is a flush and a load of the
    same id whose calls all succeed. -/
inductive SrcEvent where
  | get (len : ObjLen) (mmapOk : Bool)
  | write (mem : Nat → UInt8)
  | readmode
  | flush (env : FlushEnv)
  | load (id : List UInt8) (env : LoadEnv)
  | reload

/-- A flush, then a load of the same id. -/
def reloadSrc (C : RoundUp) (L : SrcLayout) (s : SrcBuf) : Option (SrcBuf × Int) :=
  doLoadSrcfile C L (doFlushOutfile L s ⟨true, none⟩) (srcIdOf L s.mem) .ok

def srcStep (C : RoundUp) (L : SrcLayout) (s : SrcBuf) : SrcEvent → Option SrcBuf
  | .get len mmapOk => (srcBufGet C s len mmapOk).map Prod.fst
  | .write mem => some { s with mem }
  | .readmode => some { s with srcModified := !s.srcModified }
  | .flush env => some (doFlushOutfile L s env)
  | .load id env => (doLoadSrcfile C L s id env).map Prod.fst
  | .reload => (reloadSrc C L s).map Prod.fst

/-- The region with `struct src` in it. -/
def srcStart (C : RoundUp) (L : SrcLayout) (files : List UInt8 → Option (List UInt8)) : SrcBuf :=
  { srcSetup files with bufCur := C.up (SRC_BUF_START + L.sizeofSrc) 8 }

/-- Some blocks in a row, and where they start. -/
def srcBufGets (C : RoundUp) (s : SrcBuf) : List (ObjLen × Bool) → Option (SrcBuf × List Nat)
  | [] => some (s, [])
  | (len, mmapOk) :: rest =>
    match srcBufGet C s len mmapOk with
    | none => none
    | some (s, ret) => (srcBufGets C s rest).map fun (s, rets) => (s, ret :: rets)

/-! ## Images that are restored -/

/-- Later blocks stay clear of what was restored. -/
def LaterClear (C : RoundUp) (s' : SrcBuf) : Prop :=
  ∀ lens s'' rets, srcBufGets C s' lens = some (s'', rets) → ∀ ret ∈ rets, s'.bufCur ≤ ret

/-- A flush and a load give the image back, but for the fields that a load resets. -/
def Restores (C : RoundUp) (L : SrcLayout) (s : SrcBuf) : Prop :=
  ∃ s', reloadSrc C L s = some (s', 0) ∧ s'.bufCur = s.bufCur ∧ LaterClear C s' ∧
    ∀ a, SRC_BUF_START ≤ a → a < s.bufCur →
      s'.mem a &&& keepBits L s.image a = s.mem a &&& keepBits L s.image a

/-- A load that fails leaves the region as it was. -/
def FailedLoadKeeps (C : RoundUp) (L : SrcLayout) (s : SrcBuf) (id : List UInt8) (env : LoadEnv) :
    Prop :=
  ∀ s', doLoadSrcfile C L s id env = some (s', -1) →
    s'.mem = s.mem ∧ s'.bufCur = s.bufCur ∧ s'.bufTotalSize = s.bufTotalSize

/-- The law of a step. -/
def ImageLaw (C : RoundUp) (L : SrcLayout) (s : SrcBuf) : SrcEvent → Prop
  | .load id env => FailedLoadKeeps C L s id env ∧
      ∀ s', doLoadSrcfile C L s id env = some (s', 0) → LaterClear C s'
  | .reload => Restores C L s
  | _ => True

/-- A file gives the image back: it has its length, and with its fields reset its bytes. -/
def HoldsImage (L : SrcLayout) (s : SrcBuf) (file : List UInt8) : Prop :=
  SRC_BUF_START + file.length = s.bufCur ∧ ∀ a, SRC_BUF_START ≤ a → a < s.bufCur →
    resetFields L file (blit (fun _ => 0) SRC_BUF_START file) a &&& keepBits L s.image a =
      s.mem a &&& keepBits L s.image a

/-- No load fails once the region is unmapped. -/
def FailsEarly (C : RoundUp) (L : SrcLayout) (s : SrcBuf) (id : List UInt8) (env : LoadEnv) :
    Prop :=
  ∀ file, (doFlushOutfile L s env.flush).files id = some file →
    env.openErr = false → env.fstatErr = false →
      file.length < SRC_BUF_END - SRC_BUF_START → C.up file.length SRC_BUF_BLKSZ ≠ 0 →
        env.mmapOk = true → env.readErr = none ∧ env.sysinfoErr = false

/-- The image leaves a byte of the region free; what a flush does not write is in the file of the
    id already, or there is none. -/
def SavedWhole (L : SrcLayout) (s : SrcBuf) : Prop :=
  if s.writes L then s.bufCur < SRC_BUF_END
  else ∀ file ∈ s.files (srcIdOf L s.mem), s.bufCur < SRC_BUF_END ∧ HoldsImage L s file

/-- The guard of a step. -/
def ImageGuard (C : RoundUp) (L : SrcLayout) (s : SrcBuf) : SrcEvent → Prop
  | .load id env => FailsEarly C L s id env
  | .reload => SavedWhole L s
  | _ => True

variable {s s' : SrcBuf} {file id : List UInt8} {env : LoadEnv}

/-! ## Reading a file back -/

theorem blit_at {mem : Nat → UInt8} {addr a : Nat} {bytes : List UInt8} (h : addr ≤ a)
    (h' : a < addr + bytes.length) : bytes[a - addr]? = some (blit mem addr bytes a) := by
  have hlt : a - addr < bytes.length := by omega
  simp [blit, Nat.not_lt.mpr h, List.getElem?_eq_getElem hlt]

/-- What a load leaves of a byte depends on this byte only. -/
theorem resetFields_congr {a : Nat} (h : mem a = mem' a) :
    resetFields L image mem a = resetFields L image mem' a := by
  have hblit : ∀ {m m' : Nat → UInt8} (addr : Nat) (bytes : List UInt8), m a = m' a →
      blit m addr bytes a = blit m' addr bytes a := by
    intro m m' addr bytes hm
    simp only [blit, hm]
  have hclear : ∀ {m m' : Nat → UInt8} (b : Nat), m a = m' a →
      clearNeedUnload L m b a = clearNeedUnload L m' b a := by
    intro m m' b hm
    unfold clearNeedUnload
    by_cases ha : a = b + L.needUnload
    · subst ha
      rw [Function.update_self, Function.update_self, hm]
    · rw [Function.update_of_ne ha, Function.update_of_ne ha, hm]
  have hloop : ∀ {f : (Nat → UInt8) → Nat → (Nat → UInt8)} (xs : List Nat)
      (_ : ∀ (m m' : Nat → UInt8) (x : Nat), m a = m' a → f m x a = f m' x a)
      {m m' : Nat → UInt8}, m a = m' a → xs.foldl f m a = xs.foldl f m' a := by
    intro f xs hf
    induction xs with
    | nil => exact fun hm => hm
    | cons x xs ih => exact fun hm => ih (hf _ _ x hm)
  unfold resetFields
  refine hblit _ _ (hloop _ ?_ (hloop _ ?_ (hblit _ _ h)))
  · exact fun m m' b hm => hblit _ _ (hclear b hm)
  · exact fun m m' rf hm => hblit _ _ hm

theorem image_length (s : SrcBuf) : s.image.length = s.bufCur - SRC_BUF_START :=
  readRange_length ..

/-- **The file that a flush writes gives the image back.** -/
theorem holdsImage_image (L : SrcLayout) (h : SRC_BUF_START ≤ s.bufCur) :
    HoldsImage L s s.image := by
  refine ⟨by rw [image_length]; omega, fun a hle hlt => ?_⟩
  rw [sameBut_resetFields]
  have hat : s.image[a - SRC_BUF_START]? = some (blit (fun _ => 0) SRC_BUF_START s.image a) :=
    blit_at hle (by rw [image_length]; omega)
  have hbyte : s.image[a - SRC_BUF_START]? = some (s.mem a) := by
    have hlt' : a - SRC_BUF_START < s.bufCur - SRC_BUF_START := by omega
    simp [SrcBuf.image, readRange, hlt', Nat.add_sub_cancel' hle]
  rw [hbyte] at hat
  rw [← Option.some.inj hat]

/-- A string with its end is a prefix of what it was read from. -/
theorem getElem?_string {l : List UInt8} {k : Nat} {b : UInt8} (hk : k < l.length)
    (h : (l.takeWhile (· ≠ 0) ++ [0])[k]? = some b) : l[k]? = some b := by
  induction l generalizing k with
  | nil => exact absurd hk (Nat.not_lt_zero k)
  | cons c l ih =>
    by_cases hc : c = 0
    · subst hc
      cases k with
      | zero => simpa using h
      | succ k => simp at h
    · rw [List.takeWhile_cons_of_pos (by simp [hc]), List.cons_append] at h
      cases k with
      | zero => exact h
      | succ k => exact ih (Nat.lt_of_succ_lt_succ hk) h

/-- Setting the id that is set changes nothing. -/
theorem setSrcId_self (L : SrcLayout) (mem : Nat → UInt8) :
    setSrcId L mem (srcIdOf L mem) = mem := by
  funext a
  unfold setSrcId blit
  split
  · rfl
  rename_i hle
  cases hb : ((srcIdOf L mem ++ [0]).take SRC_ID_LEN)[a - (SRC_BUF_START + L.srcId)]? with
  | none => rfl
  | some b =>
    rw [List.getElem?_take] at hb
    split at hb
    · rename_i hlt
      have hlen : a - (SRC_BUF_START + L.srcId) <
          (readRange mem (SRC_BUF_START + L.srcId) PATH_MAX).length := by
        rw [readRange_length]
        simp only [SRC_ID_LEN, PATH_MAX] at hlt ⊢
        omega
      have hmem := getElem?_string hlen hb
      rw [readRange_length] at hlen
      simp only [readRange, List.getElem?_map, List.getElem?_range hlen, Option.map_some,
        Option.some.injEq] at hmem
      rw [Option.getD_some, ← hmem, Nat.add_sub_cancel' (Nat.not_lt.mp hle)]
    · cases hb

/-- Rounding a length up to whole steps. -/
theorem up_fits (C : RoundUp) {len : Nat} (h : len < SRC_BUF_END - SRC_BUF_START) :
    SRC_BUF_START + C.up len SRC_BUF_BLKSZ ≤ SRC_BUF_END := by
  have hlt := C.up_lt len SRC_BUF_BLKSZ (by decide)
  obtain ⟨k, hk⟩ := C.dvd_up len SRC_BUF_BLKSZ (by decide)
  simp only [SRC_BUF_START, SRC_BUF_END, SRC_BUF_BLKSZ] at *
  omega

theorem up_eq_zero (C : RoundUp) {len : Nat} : C.up len SRC_BUF_BLKSZ = 0 ↔ len = 0 := by
  have hle := C.le_up len SRC_BUF_BLKSZ (by decide)
  constructor
  · intro h
    omega
  · rintro rfl
    exact C.up_of_dvd (by decide) (Nat.dvd_zero _)

/-- Mapping the region anew for a file. -/
theorem mustExpand_restore (C : RoundUp) (s : SrcBuf) {len : Nat} (mmapOk : Bool)
    (h : len < SRC_BUF_END - SRC_BUF_START) :
    mustExpand C (bufRestore s) len mmapOk =
      if mmapOk = true ∧ len ≠ 0 then
        some { s with
          mem := zeroPages s.mem SRC_BUF_START (C.up len SRC_BUF_BLKSZ)
          bufCur := SRC_BUF_START
          bufTotalSize := C.up len SRC_BUF_BLKSZ }
      else none := by
  rw [mustExpand_eq]
  have hfits : SRC_BUF_START + (bufRestore s).bufTotalSize + C.up len SRC_BUF_BLKSZ ≤ SRC_BUF_END :=
    up_fits C h
  by_cases hok : mmapOk = true ∧ len ≠ 0
  · rw [if_pos hok, if_pos ⟨hfits, hok.1, fun hz => hok.2 ((up_eq_zero C).mp hz)⟩]
    simp only [bufRestore, Nat.add_zero, Nat.zero_add]
  · rw [if_neg hok, if_neg fun h' => hok ⟨h'.2.1, fun hz => h'.2.2 ((up_eq_zero C).mpr hz)⟩]

/-- Reading a file when all calls succeed. -/
theorem readSrcfile_ok (C : RoundUp) (L : SrcLayout) (s : SrcBuf) (file : List UInt8) :
    readSrcfile C L s file .ok =
      if file.length < SRC_BUF_END - SRC_BUF_START ∧ file ≠ [] then
        some ({ s with
          mem := resetFields L file (blit (zeroPages s.mem SRC_BUF_START
            (C.up file.length SRC_BUF_BLKSZ)) SRC_BUF_START file)
          bufCur := SRC_BUF_START + file.length
          bufTotalSize := C.up file.length SRC_BUF_BLKSZ }, 0)
      else none := by
  unfold readSrcfile
  by_cases hlen : file.length < SRC_BUF_END - SRC_BUF_START
  · have hle := Nat.not_le.mpr hlen
    rw [mustExpand_restore C s _ hlen]
    by_cases hnil : file = []
    · simp [LoadEnv.ok, hnil]
    · simp [LoadEnv.ok, hnil, hlen, hle]
  · have hle := Nat.not_lt.mp hlen
    simp [LoadEnv.ok, hle, hlen]

/-! ## A flush and a load -/

/-- Flushing twice writes the same file. -/
theorem flush_files (L : SrcLayout) (s : SrcBuf) :
    (doFlushOutfile L (doFlushOutfile L s ⟨true, none⟩) LoadEnv.ok.flush).files
        (srcIdOf L s.mem) =
      if s.writes L then some s.image else s.files (srcIdOf L s.mem) := by
  by_cases hw : s.writes L = true
  · have hw' : (doFlushOutfile L s ⟨true, none⟩).writes L = true := by
      obtain ⟨files, heq⟩ := flush_same L s ⟨true, none⟩
      rw [heq]
      exact hw
    have hlast : ∀ t : SrcBuf, t.writes L = true →
        (doFlushOutfile L t ⟨true, none⟩).files (srcIdOf L t.mem) = some t.image := by
      intro t ht
      simp [doFlushOutfile, ht]
    have htwice := hlast _ hw'
    obtain ⟨files, heq⟩ := flush_same L s ⟨true, none⟩
    rw [heq] at htwice ⊢
    rw [if_pos hw]
    exact htwice
  · have hnone : doFlushOutfile L s ⟨true, none⟩ = s := by simp [doFlushOutfile, hw]
    rw [hnone, if_neg hw]
    show (doFlushOutfile L s ⟨true, none⟩).files _ = _
    rw [hnone]

/-- Flushing keeps the region. -/
theorem flush_region (L : SrcLayout) (s : SrcBuf) (env : FlushEnv) :
    (doFlushOutfile L s env).mem = s.mem ∧ (doFlushOutfile L s env).bufCur = s.bufCur ∧
      (doFlushOutfile L s env).bufTotalSize = s.bufTotalSize := by
  obtain ⟨files, heq⟩ := flush_same L s env
  rw [heq]
  exact ⟨rfl, rfl, rfl⟩

/-- Later blocks start at the cursor or behind it. -/
theorem laterClear (hi : RegionInv s) : LaterClear C s := by
  intro lens
  induction lens generalizing s with
  | nil =>
    intro s'' rets h ret hret
    cases h
    cases hret
  | cons x lens ih =>
    obtain ⟨len, mmapOk⟩ := x
    intro s'' rets h ret hret
    simp only [srcBufGets] at h
    split at h
    · cases h
    rename_i s₁ ret₁ hget
    obtain ⟨⟨s₂, rets₂⟩, hrest, heq⟩ := Option.map_eq_some_iff.mp h
    cases heq
    obtain ⟨hi₁, rfl, hcur, -⟩ := hi.get hget
    obtain rfl | hret := List.mem_cons.mp hret
    · exact Nat.le_refl _
    · have hle := ih hi₁ s₂ rets₂ hrest ret hret
      omega

/-- A region with the same cursor and size is in order as well. -/
theorem RegionInv.frame (hi : RegionInv s) (hcur : s'.bufCur = s.bufCur)
    (htotal : s'.bufTotalSize = s.bufTotalSize) : RegionInv s' := by
  refine ⟨hcur ▸ hi.start_le, ?_, htotal ▸ hi.le_end, htotal ▸ hi.steps⟩
  rw [hcur, htotal]
  exact hi.cur_le

/-- The region is in order and holds `struct src`. -/
structure ImageInv (s : SrcBuf) : Prop extends RegionInv s where
  start_lt : SRC_BUF_START < s.bufCur

/-- Loading a file gives the image back exactly when the file holds it. -/
theorem readSrcfile_restores (hi : ImageInv s) (s₀ : SrcBuf) :
    (∃ s', readSrcfile C L s₀ file .ok = some (s', 0) ∧ s'.bufCur = s.bufCur ∧ LaterClear C s' ∧
      ∀ a, SRC_BUF_START ≤ a → a < s.bufCur →
        s'.mem a &&& keepBits L s.image a = s.mem a &&& keepBits L s.image a) ↔
      s.bufCur < SRC_BUF_END ∧ HoldsImage L s file := by
  have hstart := hi.start_lt
  have hblit : ∀ mem a, SRC_BUF_START ≤ a → a < SRC_BUF_START + file.length →
      resetFields L file (blit mem SRC_BUF_START file) a =
        resetFields L file (blit (fun _ => 0) SRC_BUF_START file) a := by
    intro mem a hle hlt
    have h : some (blit mem SRC_BUF_START file a) =
        some (blit (fun _ => 0) SRC_BUF_START file a) :=
      (blit_at hle hlt).symm.trans (blit_at hle hlt)
    exact resetFields_congr (Option.some.inj h)
  rw [readSrcfile_ok]
  constructor
  · rintro ⟨s', h, hcur, -, hbytes⟩
    split at h
    · rename_i hlen
      cases h
      have hcur' : SRC_BUF_START + file.length = s.bufCur := hcur
      refine ⟨by omega, hcur', fun a hle hlt => ?_⟩
      rw [← hblit _ a hle (by omega)]
      exact hbytes a hle hlt
    · cases h
  · rintro ⟨hend, hlen, hbytes⟩
    have hpos : 0 < file.length := by omega
    have hok : file.length < SRC_BUF_END - SRC_BUF_START ∧ file ≠ [] :=
      ⟨by omega, List.length_pos_iff.mp hpos⟩
    rw [if_pos hok]
    refine ⟨_, rfl, hlen, laterClear ⟨?_, ?_, ?_, ?_⟩, fun a hle hlt => ?_⟩
    · exact Nat.le_add_right _ _
    · have hup := C.le_up file.length SRC_BUF_BLKSZ (by decide)
      show SRC_BUF_START + file.length ≤ SRC_BUF_START + C.up file.length SRC_BUF_BLKSZ
      omega
    · exact up_fits C hok.1
    · exact C.dvd_up _ _ (by decide)
    · rw [← hbytes a hle hlt, ← hblit _ a hle (by omega)]

/-- **A flush and a load give the image back exactly when it was saved whole.** -/
theorem restores_iff (hi : ImageInv s) : Restores C L s ↔ SavedWhole L s := by
  have hfiles := flush_files L s
  obtain ⟨hmem₁, hcur₁, htotal₁⟩ := flush_region L s ⟨true, none⟩
  obtain ⟨hmem₂, hcur₂, htotal₂⟩ :=
    flush_region L (doFlushOutfile L s ⟨true, none⟩) LoadEnv.ok.flush
  have hno : LoadEnv.ok.openErr = false := rfl
  unfold Restores SavedWhole reloadSrc doLoadSrcfile
  simp only [hno, Bool.false_eq_true, if_false, hfiles]
  by_cases hw : s.writes L = true
  · simp only [hw, if_true]
    rw [readSrcfile_restores hi]
    exact and_iff_left (holdsImage_image L hi.start_le)
  · simp only [hw, if_false, Bool.false_eq_true]
    cases hfile : s.files (srcIdOf L s.mem) with
    | some file =>
      simp only [Option.mem_def, Option.some.injEq, forall_eq']
      exact readSrcfile_restores hi _
    | none =>
      -- without a file the image stays where it is
      have hmem : (doFlushOutfile L (doFlushOutfile L s ⟨true, none⟩) LoadEnv.ok.flush).mem =
          s.mem := hmem₂.trans hmem₁
      refine iff_of_true ⟨_, rfl, hcur₂.trans hcur₁, laterClear ?_, fun a _ _ => ?_⟩ (by simp)
      · exact hi.toRegionInv.frame (hcur₂.trans hcur₁) (htotal₂.trans htotal₁)
      · rw [hmem, setSrcId_self]

/-- **How a load fails**: before it has touched the region, or with the cursor at its start. -/
theorem load_fails (h : doLoadSrcfile C L s id env = some (s', -1)) :
    s' = doFlushOutfile L s env.flush ∨
      (s'.bufCur = SRC_BUF_START ∧ ¬ FailsEarly C L s id env) := by
  unfold doLoadSrcfile at h
  simp only at h
  split at h
  · cases h
    exact Or.inl rfl
  rename_i hopen
  split at h
  · cases h
  rename_i file hfile
  unfold readSrcfile at h
  split at h
  · cases h
    exact Or.inl rfl
  rename_i hfstat
  split at h
  · cases h
  rename_i hlen
  have hlt := Nat.not_le.mp hlen
  rw [mustExpand_restore C _ _ hlt] at h
  split at h
  · cases h
  rename_i s₁ hexp
  split at hexp
  · rename_i hmap
    cases hexp
    have hpremise : FailsEarly C L s id env → env.readErr = none ∧ env.sysinfoErr = false :=
      fun hearly => hearly file hfile (by simpa using hopen) (by simpa using hfstat) hlt
        (fun hz => hmap.2 ((up_eq_zero C).mp hz)) hmap.1
    refine Or.inr ⟨?_, fun hearly => ?_⟩
    · split at h
      · cases h
        rfl
      · simp only at h
        split at h
        · cases h
          rfl
        · cases h
    · obtain ⟨hread, hsysinfo⟩ := hpremise hearly
      simp [hread, hsysinfo] at h
  · cases hexp

/-- A load that would fail late does so. -/
theorem load_fails_late (h : ¬ FailsEarly C L s id env) :
    ∃ s', doLoadSrcfile C L s id env = some (s', -1) ∧ s'.bufCur = SRC_BUF_START := by
  simp only [FailsEarly, not_forall] at h
  obtain ⟨file, hfile, hopen, hfstat, hlt, hup, hmap, hlate⟩ := h
  have hle := Nat.not_le.mpr hlt
  have hzero : file.length ≠ 0 := fun hz => hup ((up_eq_zero C).mpr hz)
  unfold doLoadSrcfile readSrcfile
  simp only [hopen, hfile, hfstat, Bool.false_eq_true, if_false, if_neg hle]
  rw [mustExpand_restore C _ _ hlt, if_pos ⟨hmap, hzero⟩]
  cases hread : env.readErr with
  | some got => exact ⟨_, rfl, rfl⟩
  | none =>
    cases hsysinfo : env.sysinfoErr with
    | true => exact ⟨_, rfl, rfl⟩
    | false => exact absurd ⟨hread, hsysinfo⟩ hlate

/-- **A load that fails leaves the region alone exactly when it fails early.** -/
theorem failedLoadKeeps_iff (hi : ImageInv s) :
    FailedLoadKeeps C L s id env ↔ FailsEarly C L s id env := by
  constructor
  · intro hkeeps
    by_contra hlate
    obtain ⟨s', h, hcur⟩ := load_fails_late hlate
    have hstart := hi.start_lt
    have hsame := (hkeeps s' h).2.1
    omega
  · intro hearly s' h
    obtain rfl | ⟨-, hlate⟩ := load_fails h
    · exact flush_region L s env.flush
    · exact absurd hearly hlate

/-! ## Whole runs -/

/-- A load returns 0 or -1. -/
theorem load_ret {r : Int} (h : doLoadSrcfile C L s id env = some (s', r)) : r = 0 ∨ r = -1 := by
  unfold doLoadSrcfile readSrcfile at h
  simp only at h
  split at h
  · cases h
    exact Or.inr rfl
  split at h
  · cases h
    exact Or.inl rfl
  split at h
  · cases h
    exact Or.inr rfl
  split at h
  · cases h
  split at h
  · cases h
  split at h
  · cases h
    exact Or.inr rfl
  split at h
  · cases h
    exact Or.inr rfl
  · cases h
    exact Or.inl rfl

theorem ImageInv.flush (hi : ImageInv s) (env : FlushEnv) :
    ImageInv (doFlushOutfile L s env) := by
  obtain ⟨-, hcur, htotal⟩ := flush_region L s env
  exact ⟨hi.toRegionInv.frame hcur htotal, hcur ▸ hi.start_lt⟩

/-- **A load that does not fail late leaves an image.** -/
theorem ImageInv.load (hi : ImageInv s) (hg : FailsEarly C L s id env) {r : Int}
    (h : doLoadSrcfile C L s id env = some (s', r)) : ImageInv s' := by
  obtain rfl | rfl := load_ret h
  · refine ⟨hi.toRegionInv.load h, ?_⟩
    obtain ⟨-, rfl⟩ | ⟨file, s₁, -, hlt, hexp, rfl⟩ := load_cases h
    · exact (hi.flush env.flush).start_lt
    · rw [mustExpand_restore C _ _ hlt] at hexp
      split at hexp
      · rename_i hmap
        have hpos := Nat.pos_of_ne_zero hmap.2
        show SRC_BUF_START < SRC_BUF_START + file.length
        omega
      · cases hexp
  · obtain rfl | ⟨-, hlate⟩ := load_fails h
    · exact hi.flush env.flush
    · exact absurd hg hlate

theorem imageInv_step {e : SrcEvent} (hi : ImageInv s) (hg : ImageGuard C L s e)
    (h : srcStep C L s e = some s') : ImageInv s' := by
  cases e with
  | get len mmapOk =>
    obtain ⟨⟨buf, ret⟩, hget, rfl⟩ := Option.map_eq_some_iff.mp h
    obtain ⟨hregion, -, hcur, -⟩ := hi.toRegionInv.get hget
    refine ⟨hregion, ?_⟩
    have hstart := hi.start_lt
    show SRC_BUF_START < buf.bufCur
    omega
  | write mem =>
    cases h
    exact ⟨hi.toRegionInv.frame rfl rfl, hi.start_lt⟩
  | readmode =>
    cases h
    exact ⟨hi.toRegionInv.frame rfl rfl, hi.start_lt⟩
  | flush env =>
    cases h
    exact hi.flush env
  | load id env =>
    obtain ⟨⟨_, r⟩, hload, rfl⟩ := Option.map_eq_some_iff.mp h
    exact hi.load hg hload
  | reload =>
    obtain ⟨⟨_, r⟩, hload, rfl⟩ := Option.map_eq_some_iff.mp h
    exact (hi.flush _).load (fun _ _ _ _ _ _ _ => ⟨rfl, rfl⟩) hload

/-- The law of a step holds exactly where its guard does. -/
theorem imageLaw_iff (hi : ImageInv s) (e : SrcEvent) : ImageLaw C L s e ↔ ImageGuard C L s e := by
  cases e with
  | load id env =>
    refine (and_iff_left fun s' h => ?_).trans (failedLoadKeeps_iff hi)
    exact laterClear (hi.toRegionInv.load h)
  | reload => exact restores_iff hi
  | get len mmapOk => exact Iff.rfl
  | write mem => exact Iff.rfl
  | readmode => exact Iff.rfl
  | flush env => exact Iff.rfl

theorem imageInv_start (C : RoundUp) (L : SrcLayout) (files : List UInt8 → Option (List UInt8)) :
    ImageInv (srcStart C L files) := by
  have hle := C.le_up (SRC_BUF_START + L.sizeofSrc) 8 (by decide)
  have hlt := C.up_lt (SRC_BUF_START + L.sizeofSrc) 8 (by decide)
  have hdvd := C.dvd_up (SRC_BUF_START + L.sizeofSrc) 8 (by decide)
  have hpos := L.sizeofSrc_pos
  have hsize := L.sizeofSrc_le
  obtain ⟨-, -, hend, hsteps⟩ := regionInv_setup files
  refine ⟨⟨?_, ?_, hend, hsteps⟩, ?_⟩
  · show _ ≤ C.up _ _
    omega
  · show C.up _ _ ≤ SRC_BUF_START + SRC_BUF_BLKSZ
    simp only [SRC_BUF_START, SRC_BUF_BLKSZ] at *
    omega
  · show _ < C.up _ _
    omega

/-- **Whatever files there are, over every run a flush and a load of the same id give the image
    back, later blocks stay clear of it, and a load that fails leaves everything as it was, exactly
    when each image that is loaded again was saved whole and no load fails late.** -/
theorem image_exact (C : RoundUp) (L : SrcLayout) (files : List UInt8 → Option (List UInt8))
    (es : List SrcEvent) :
    Along (srcStep C L) (ImageLaw C L) (srcStart C L files) es ↔
      Along (srcStep C L) (ImageGuard C L) (srcStart C L files) es :=
  along_congr (fun _ _ _ hi hg h => imageInv_step hi hg h) (fun _ e hi => imageLaw_iff hi e)
    (imageInv_start C L files)

/-- The file of the id `a` cannot be read. -/
theorem failed_read_loses_image :
    ¬ Along (srcStep .div bareLayout) (ImageLaw .div bareLayout)
      (srcStart .div bareLayout fun id => if id = [97] then some [1] else none)
      [.load [97] { LoadEnv.ok with readErr := some [] }] := by
  rintro ⟨⟨hkeeps, -⟩, -⟩
  have hcur := (hkeeps _ rfl).2.1
  cases hcur

end Srcinv.Src
