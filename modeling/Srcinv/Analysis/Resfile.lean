import Mathlib.Data.List.Basic
import Mathlib.Logic.Function.Basic
import Srcinv.Analysis.Globals
import Srcinv.Analysis.Preview
import Srcinv.Lib.Run

/-!
# Resfiles and their address ranges (`analysis/resfile.c`, `analysis/parse.c`)

A call of `parse_resfile` starts with `openResfile`: unless the resfile is known it is previewed,
record by record, and added to `resfile_head` when the preview succeeds.  The sibufs are inserted
one by one while the preview is going on, and the base address of the next preview only counts
the resfiles that were added.  Of the phases that follow only `MODE_ADJUST` changes addresses.

* `RangesGood` — the ranges of the sibufs are disjoint, the addresses of a table lie in the range
  of its sibuf, and `find_target_sibuf` finds it.
* `ranges_exact` — this holds all along a run exactly when every preview that reaches a record
  starts without sibufs that a failed preview left behind, and the addresses it meets in the
  tables belong to the ranges it hands out.

The files are mapped shared, so what is written into a table stays in the file.  A path stands for
its file.
-/

namespace Srcinv.Analysis

open Srcinv.Lib

/-- `total_size` of a record. -/
def total (r : FileRecord) : Nat := r.1.hdr.totalSize

/-- A file: its records and the size `fstat` reports, which ends in one of them. -/
structure File where
  records : List FileRecord
  stSize : Nat
  covered : stSize ≤ (records.map total).sum

/-- `struct resfile`. -/
structure Resfile where
  path : String
  builtIn : Bool
  filelen : Nat
  totalFiles : Nat
  deriving DecidableEq, Repr

/-- What the calls that `parse_resfile` makes return: where the first failure is, if any. -/
inductive Outcome where
  | noMem
  | openErr
  | fstatErr
  | mmapErr (k : Nat)
  | munmapErr (k : Nat)
  | done
  deriving DecidableEq, Repr

/-- The src, with the files.  `rfs` are the resfiles ever allocated, `resfileHead` those that
    were added. -/
structure PreviewSrc where
  files : String → File
  rfs : List Resfile
  resfileHead : List Nat
  sibufs : List Sibuf

/-- Before the first call. -/
def PreviewSrc.init (files : String → File) : PreviewSrc := ⟨files, [], [], []⟩

/-- `filelen` of a resfile. -/
def filelen (rfs : List Resfile) (rf : Nat) : Nat := (rfs[rf]?.map Resfile.filelen).getD 0

/-- `addr_base` of `resfile_preview`. -/
def addrBase (R : Rounding) (st : PreviewSrc) : Nat :=
  RESFILE_BUF_START + (st.resfileHead.map fun rf => R.up (filelen st.rfs rf)).sum

/-- `resfile_find`. -/
def resfileFind (st : PreviewSrc) (path : String) : Option Nat :=
  st.resfileHead.find? fun rf => (st.rfs[rf]?.map Resfile.path) == some path

/-- What a preview does to a record of the file. -/
def stamp (rf addr fileOffs : Nat) (r : FileRecord) : FileRecord :=
  ⟨(previewRecord rf addr fileOffs r.1).2, previewRecord_wellFormed rf addr fileOffs r.2⟩

@[simp] theorem total_stamp (rf addr fileOffs : Nat) (r : FileRecord) :
    total (stamp rf addr fileOffs r) = total r := rfl

theorem total_pos (r : FileRecord) : 0 < total r := r.2.total_pos

/-- How the loop over the records `rs` ends. -/
structure LoopEnd (rs : List FileRecord) where
  ok : Bool
  sibufs : List Sibuf
  records : List FileRecord
  same : records.map total = rs.map total

/-- The loop of `resfile_preview`, at record `k` of the file.  `none`: it reads past the last
    record. -/
def previewLoop (rf stSize : Nat) (out : Outcome) :
    Nat → Nat → Nat → (rs : List FileRecord) → Option (LoopEnd rs)
  | k, _, _, [] => if out = .mmapErr k then some ⟨false, [], [], rfl⟩ else none
  | k, fileOffs, addr, r :: rs =>
    if out = .mmapErr k then some ⟨false, [], r :: rs, rfl⟩
    else
      let b := (previewRecord rf addr fileOffs r.1).1
      let r' := stamp rf addr fileOffs r
      if out = .munmapErr k then some ⟨false, [b], r' :: rs, rfl⟩
      else if fileOffs + total r = stSize then some ⟨true, [b], r' :: rs, rfl⟩
      else if fileOffs + total r > stSize then some ⟨false, [b], r' :: rs, rfl⟩
      else
        (previewLoop rf stSize out (k + 1) (fileOffs + total r) (addr + total r) rs).map fun l =>
          ⟨l.ok, b :: l.sibufs, r' :: l.records, by simp [r', l.same]⟩

/-- The file after the loop. -/
def File.after (file : File) (l : LoopEnd file.records) : File :=
  ⟨l.records, file.stSize, l.same ▸ file.covered⟩

/-- `resfile_preview`: whether it returned 0, and the src. -/
def resfilePreview (R : Rounding) (st : PreviewSrc) (rf : Nat) (out : Outcome) :
    Option (Bool × PreviewSrc) :=
  match st.rfs[rf]? with
  | none => none
  | some f =>
    if out = .openErr ∨ out = .fstatErr then some (false, st)
    else
      let file := st.files f.path
      match previewLoop rf file.stSize out 0 0 (addrBase R st) file.records with
      | none => none
      | some l =>
        some (l.ok,
          { st with
            files := Function.update st.files f.path (file.after l)
            rfs := if l.ok then
                st.rfs.set rf { f with filelen := file.stSize, totalFiles := l.sibufs.length }
              else st.rfs
            sibufs := st.sibufs ++ l.sibufs })

/-- A call of `parse_resfile`, with what happens in it. -/
structure ParseCall where
  path : String
  builtIn : Bool
  out : Outcome
  deriving DecidableEq, Repr

/-- `parse_resfile` up to the first phase, with `resfile_new` and `resfile_add`. -/
def openResfile (R : Rounding) (st : PreviewSrc) (call : ParseCall) : Option PreviewSrc :=
  match resfileFind st call.path with
  | some _ => some st
  | none =>
    if call.out = .noMem then some st
    else
      let rf := st.rfs.length
      let st := { st with rfs := st.rfs ++ [⟨call.path, call.builtIn, 0, 0⟩] }
      match resfilePreview R st rf call.out with
      | none => none
      | some (false, st) => some st
      | some (true, st) =>
        some { st with
          resfileHead := if call.builtIn then rf :: st.resfileHead else st.resfileHead ++ [rf] }

/-- `MODE_ADJUST` on a record. -/
def adjustRecord (r : FileRecord) : Option FileRecord :=
  match h : adjustTable r.1.objs with
  | none => none
  | some objs => some ⟨{ r.1 with objs := objs }, adjusted_wellFormed r.2 h⟩

/-- `MODE_ADJUST` on the record that starts at `offs`. -/
def adjustAt : List FileRecord → Nat → Option (List FileRecord)
  | [], _ => none
  | r :: rs, offs =>
    if offs = 0 then (adjustRecord r).map fun r' => r' :: rs
    else if offs < total r then none
    else (adjustAt rs (offs - total r)).map fun rs' => r :: rs'

theorem total_adjustRecord {r r' : FileRecord} (h : adjustRecord r = some r') :
    total r' = total r := by
  unfold adjustRecord at h
  split at h
  · cases h
  · cases h
    rfl

theorem adjustAt_total : ∀ {rs rs' : List FileRecord} {offs : Nat}, adjustAt rs offs = some rs' →
    rs'.map total = rs.map total
  | r :: rs, rs', offs, h => by
    unfold adjustAt at h
    split at h
    · obtain ⟨r', hr, rfl⟩ := Option.map_eq_some_iff.mp h
      rw [List.map_cons, List.map_cons, total_adjustRecord hr]
    · split at h
      · cases h
      · obtain ⟨rs', hrs, rfl⟩ := Option.map_eq_some_iff.mp h
        rw [List.map_cons, List.map_cons, adjustAt_total hrs]

/-- The file after the adjustment of one record. -/
def File.adjust (file : File) (offs : Nat) : Option File :=
  match h : adjustAt file.records offs with
  | none => none
  | some records => some ⟨records, file.stSize, adjustAt_total h ▸ file.covered⟩

/-- `do_phase` of `STEP1` on the `i`-th sibuf; the phases only run over resfiles that were
    added. -/
def adjustSibuf (st : PreviewSrc) (i : Nat) : Option PreviewSrc :=
  match st.sibufs[i]? with
  | none => none
  | some b =>
    match st.rfs[b.rf]? with
    | none => none
    | some f =>
      if b.rf ∉ st.resfileHead then none
      else ((st.files f.path).adjust b.offsOfResfile).map fun file =>
        { st with files := Function.update st.files f.path file }

/-- What happens in the calls of `parse_resfile`. -/
inductive ResfileEvent where
  | opens (call : ParseCall)
  | adjusts (i : Nat)
  deriving DecidableEq, Repr

def parseResfile (R : Rounding) (st : PreviewSrc) : ResfileEvent → Option PreviewSrc
  | .opens call => openResfile R st call
  | .adjusts i => adjustSibuf st i

/-- `find_target_sibuf`. -/
def findTargetSibuf (st : PreviewSrc) (addr : Nat) : Option Sibuf :=
  st.sibufs.find? fun b => b.Contains addr

/-- The record that starts at `offs` in a file. -/
def recordAt : List FileRecord → Nat → Option FileRecord
  | [], _ => none
  | r :: rs, offs =>
    if offs = 0 then some r else if offs < total r then none else recordAt rs (offs - total r)

/-- The record whose object table `b->objs` points to. -/
def tableOf (st : PreviewSrc) (b : Sibuf) : Option FileRecord :=
  st.rfs[b.rf]?.bind fun f => recordAt (st.files f.path).records b.offsOfResfile

/-- The property of the address ranges. -/
structure RangesGood (st : PreviewSrc) : Prop where
  apart : st.sibufs.Pairwise (Apart Sibuf.loadAddr Sibuf.totalLen)
  inside : ∀ b ∈ st.sibufs, ∃ r, tableOf st b = some r ∧ TableInside b r.1
  found : ∀ b ∈ st.sibufs, ∀ r, tableOf st b = some r → ∀ o ∈ r.1.objs, o.fakeAddr ≠ 0 →
    findTargetSibuf st o.realAddr = some b

/-! ## The condition -/

/-- A failed preview left sibufs behind. -/
def Leftover (st : PreviewSrc) : Prop := ∃ b ∈ st.sibufs, b.rf ∉ st.resfileHead

/-- The tables that the loop reaches fit the addresses it gives to their records. -/
def TablesFit (stSize : Nat) (out : Outcome) : Nat → Nat → Nat → List FileRecord → Prop
  | _, _, _, [] => True
  | k, fileOffs, addr, r :: rs =>
    out ≠ .mmapErr k → Fits addr r.1 ∧
      (out ≠ .munmapErr k → fileOffs + total r < stSize →
        TablesFit stSize out (k + 1) (fileOffs + total r) (addr + total r) rs)

/-- The call previews a resfile and gets as far as its first record. -/
def ReachesRecord (st : PreviewSrc) (call : ParseCall) : Prop :=
  resfileFind st call.path = none ∧ call.out ≠ .noMem ∧ call.out ≠ .openErr ∧
    call.out ≠ .fstatErr ∧ call.out ≠ .mmapErr 0 ∧ (st.files call.path).records ≠ []

/-- A preview that reaches a record meets no leftover sibufs, and only tables that fit. -/
def OpenGuard (R : Rounding) (st : PreviewSrc) (call : ParseCall) : Prop :=
  ReachesRecord st call → ¬ Leftover st ∧
    TablesFit (st.files call.path).stSize call.out 0 0 (addrBase R st)
      (st.files call.path).records

/-- The condition on every step: adjustments are always fine. -/
def PreviewGuard (R : Rounding) (st : PreviewSrc) : ResfileEvent → Prop
  | .opens call => OpenGuard R st call
  | .adjusts _ => True

/-! ## The loop over the records -/

section Loop

variable {rf stSize : Nat} {out : Outcome}

/-- Everything one round of the loop can do. -/
theorem previewLoop_cases {k fileOffs addr : Nat} {r : FileRecord} {rs : List FileRecord}
    {l : LoopEnd (r :: rs)} (h : previewLoop rf stSize out k fileOffs addr (r :: rs) = some l) :
    (out = .mmapErr k ∧ l.ok = false ∧ l.sibufs = [] ∧ l.records = r :: rs) ∨
    (out ≠ .mmapErr k ∧ (out = .munmapErr k ∨ stSize ≤ fileOffs + total r) ∧
      (l.ok = true → fileOffs + total r = stSize) ∧
      l.sibufs = [(previewRecord rf addr fileOffs r.1).1] ∧
      l.records = stamp rf addr fileOffs r :: rs) ∨
    (out ≠ .mmapErr k ∧ out ≠ .munmapErr k ∧ fileOffs + total r < stSize ∧
      ∃ l' : LoopEnd rs,
        previewLoop rf stSize out (k + 1) (fileOffs + total r) (addr + total r) rs = some l' ∧
        l.ok = l'.ok ∧ l.sibufs = (previewRecord rf addr fileOffs r.1).1 :: l'.sibufs ∧
        l.records = stamp rf addr fileOffs r :: l'.records) := by
  unfold previewLoop at h
  split at h
  · rename_i hm
    cases h
    exact Or.inl ⟨hm, rfl, rfl, rfl⟩
  · rename_i hm
    refine Or.inr ?_
    dsimp only at h
    split at h
    · rename_i hu
      cases h
      exact Or.inl ⟨hm, Or.inl hu, by simp, rfl, rfl⟩
    · rename_i hu
      split at h
      · rename_i he
        cases h
        exact Or.inl ⟨hm, Or.inr (Nat.le_of_eq he.symm), fun _ => he, rfl, rfl⟩
      · split at h
        · rename_i hg
          cases h
          exact Or.inl ⟨hm, Or.inr (Nat.le_of_lt hg), by simp, rfl, rfl⟩
        · rename_i hne hng
          obtain ⟨l', hl', rfl⟩ := Option.map_eq_some_iff.mp h
          exact Or.inr ⟨hm, hu, by omega, l', hl', rfl, rfl, rfl⟩

theorem recordAt_skip (r r' : FileRecord) (rs : List FileRecord) (x : Nat)
    (h : total r' = total r) : recordAt (r' :: rs) (total r + x) = recordAt rs x := by
  have hpos := total_pos r
  rw [recordAt, if_neg (by omega), if_neg (by omega), h, Nat.add_sub_cancel_left]

/-- The new sibufs follow each other from `addr` on. -/
theorem previewLoop_laid : ∀ {rs : List FileRecord} {k fileOffs addr : Nat} {l : LoopEnd rs},
    previewLoop rf stSize out k fileOffs addr rs = some l →
      l.sibufs.Pairwise (Apart Sibuf.loadAddr Sibuf.totalLen) ∧
      ∀ b ∈ l.sibufs, b.rf = rf ∧ addr ≤ b.loadAddr ∧ fileOffs ≤ b.offsOfResfile ∧
        0 < b.totalLen ∧ b.loadAddr + b.totalLen ≤ addr + (l.sibufs.map Sibuf.totalLen).sum
  | [], k, fileOffs, addr, l, h => by
    unfold previewLoop at h
    split at h
    · cases h
      simp
    · cases h
  | r :: rs, k, fileOffs, addr, l, h => by
    have hpos := total_pos r
    have hb : (previewRecord rf addr fileOffs r.1).1.totalLen = total r := rfl
    rcases previewLoop_cases h with ⟨-, -, hs, -⟩ | ⟨-, -, -, hs, -⟩ | ⟨-, -, -, l', hl', -, hs, -⟩
    · simp [hs]
    · rw [hs]
      refine ⟨List.pairwise_singleton _ _, fun b hmem => ?_⟩
      rw [List.mem_singleton.mp hmem]
      simp [previewRecord]
      exact hpos
    · obtain ⟨hpair, hall⟩ := previewLoop_laid hl'
      rw [hs]
      refine ⟨List.pairwise_cons.mpr ⟨fun b hmem => ?_, hpair⟩, fun b hmem => ?_⟩
      · have := hall b hmem
        left
        rw [hb]
        exact this.2.1
      · rw [List.map_cons, List.sum_cons, hb]
        rcases List.mem_cons.mp hmem with rfl | hmem
        · refine ⟨rfl, Nat.le_refl _, Nat.le_refl _, hpos, ?_⟩
          show addr + total r ≤ _
          omega
        · obtain ⟨h1, h2, h3, h4, h5⟩ := hall b hmem
          exact ⟨h1, by omega, by omega, h4, by omega⟩

/-- A preview that returns 0 has gone through the whole file. -/
theorem previewLoop_ok : ∀ {rs : List FileRecord} {k fileOffs addr : Nat} {l : LoopEnd rs},
    previewLoop rf stSize out k fileOffs addr rs = some l → l.ok = true →
      fileOffs + (l.sibufs.map Sibuf.totalLen).sum = stSize
  | [], k, fileOffs, addr, l, h, hok => by
    unfold previewLoop at h
    split at h
    · cases h
      cases hok
    · cases h
  | r :: rs, k, fileOffs, addr, l, h, hok => by
    rcases previewLoop_cases h with
      ⟨-, hno, -, -⟩ | ⟨-, -, hsize, hs, -⟩ | ⟨-, -, -, l', hl', hok', hs, -⟩
    · simp [hno] at hok
    · rw [hs]
      simpa [previewRecord, total] using hsize hok
    · have hrest := previewLoop_ok hl' (hok' ▸ hok)
      rw [hs, List.map_cons, List.sum_cons, ← Nat.add_assoc]
      exact hrest

/-- Past the first `mmap` the first record gets the address `addr`. -/
theorem previewLoop_first {rs : List FileRecord} {k fileOffs addr : Nat} {l : LoopEnd rs}
    (h : previewLoop rf stSize out k fileOffs addr rs = some l) (hne : rs ≠ [])
    (hm : out ≠ .mmapErr k) : ∃ b ∈ l.sibufs, b.loadAddr = addr := by
  cases rs with
  | nil => exact absurd rfl hne
  | cons r rs =>
    rcases previewLoop_cases h with ⟨hm', -⟩ | ⟨-, -, -, hs, -⟩ | ⟨-, -, -, l', -, -, hs, -⟩
    · exact absurd hm' hm
    · exact ⟨_, by rw [hs]; exact List.mem_cons_self, rfl⟩
    · exact ⟨_, by rw [hs]; exact List.mem_cons_self, rfl⟩

/-- **The tables end up inside their sibufs exactly when they fitted.** -/
theorem previewLoop_inside : ∀ {rs : List FileRecord} {k fileOffs addr : Nat} {l : LoopEnd rs},
    previewLoop rf stSize out k fileOffs addr rs = some l →
      ((∀ b ∈ l.sibufs, ∃ r, recordAt l.records (b.offsOfResfile - fileOffs) = some r ∧
        TableInside b r.1) ↔ TablesFit stSize out k fileOffs addr rs)
  | [], k, fileOffs, addr, l, h => by
    unfold previewLoop at h
    split at h
    · cases h
      simp [TablesFit]
    · cases h
  | r :: rs, k, fileOffs, addr, l, h => by
    have hhead := previewRecord_inside_iff rf addr fileOffs r.2
    have hfirst : ∀ (rest : List FileRecord), recordAt (stamp rf addr fileOffs r :: rest)
        ((previewRecord rf addr fileOffs r.1).1.offsOfResfile - fileOffs) =
          some (stamp rf addr fileOffs r) := by
      intro rest
      simp [previewRecord, recordAt]
    unfold TablesFit
    rcases previewLoop_cases h with
      ⟨hm, -, hs, hrec⟩ | ⟨hm, hend, -, hs, hrec⟩ | ⟨hm, hu, hlt, l', hl', -, hs, hrec⟩
    · simp [hs, hm]
    · have hstop : ¬ (out ≠ .munmapErr k ∧ fileOffs + total r < stSize) := by
        rintro ⟨hu, hlt⟩
        rcases hend with he | he
        · exact hu he
        · omega
      rw [hs, hrec]
      simp only [List.mem_singleton, forall_eq, hfirst, Option.some.injEq, exists_eq_left']
      constructor
      · intro hin _
        exact ⟨hhead.mp hin, fun hu hlt => absurd ⟨hu, hlt⟩ hstop⟩
      · intro hfit
        exact hhead.mpr (hfit hm).1
    · have hrest := previewLoop_inside hl'
      -- the later sibufs find their records in the tail
      have htail : ∀ b ∈ l'.sibufs,
          recordAt (stamp rf addr fileOffs r :: l'.records) (b.offsOfResfile - fileOffs) =
            recordAt l'.records (b.offsOfResfile - (fileOffs + total r)) := by
        intro b hb
        have hoffs := ((previewLoop_laid hl').2 b hb).2.2.1
        rw [show b.offsOfResfile - fileOffs =
          total r + (b.offsOfResfile - (fileOffs + total r)) by omega]
        exact recordAt_skip r _ l'.records _ rfl
      rw [hs, hrec]
      simp only [List.forall_mem_cons, hfirst, Option.some.injEq, exists_eq_left']
      constructor
      · rintro ⟨hin, hall⟩ _
        refine ⟨hhead.mp hin, fun _ _ => hrest.mp fun b hb => ?_⟩
        rw [← htail b hb]
        exact hall b hb
      · intro hfit
        obtain ⟨hfit, hfits⟩ := hfit hm
        refine ⟨hhead.mpr hfit, fun b hb => ?_⟩
        rw [htail b hb]
        exact hrest.mpr (hfits hu hlt) b hb

/-- The loop does not read past the last record of a file. -/
theorem previewLoop_isSome (rf stSize : Nat) (out : Outcome) :
    ∀ (rs : List FileRecord) (k fileOffs addr : Nat), rs ≠ [] →
    stSize ≤ fileOffs + (rs.map total).sum →
      ∃ l, previewLoop rf stSize out k fileOffs addr rs = some l
  | [], _, _, _, hne, _ => absurd rfl hne
  | r :: rs, k, fileOffs, addr, _, hsize => by
    simp only [List.map_cons, List.sum_cons] at hsize
    unfold previewLoop
    split
    · exact ⟨_, rfl⟩
    · dsimp only
      split
      · exact ⟨_, rfl⟩
      · split
        · exact ⟨_, rfl⟩
        · split
          · exact ⟨_, rfl⟩
          · have hne : rs ≠ [] := by
              rintro rfl
              simp at hsize
              omega
            obtain ⟨l, hl⟩ := previewLoop_isSome rf stSize out rs (k + 1)
              (fileOffs + total r) (addr + total r) hne (by omega)
            exact ⟨_, by rw [hl]; rfl⟩

end Loop

/-! ## One call -/

/-- The resfile that a call allocates, and the src it is previewed in. -/
def withNew (st : PreviewSrc) (call : ParseCall) : PreviewSrc :=
  { st with rfs := st.rfs ++ [⟨call.path, call.builtIn, 0, 0⟩] }

/-- The src after a preview that went into the loop. -/
def afterLoop (st : PreviewSrc) (call : ParseCall)
    (l : LoopEnd (st.files call.path).records) : PreviewSrc where
  files := Function.update st.files call.path ((st.files call.path).after l)
  rfs := st.rfs ++ [if l.ok then
      ⟨call.path, call.builtIn, (st.files call.path).stSize, l.sibufs.length⟩
    else ⟨call.path, call.builtIn, 0, 0⟩]
  resfileHead :=
    if l.ok then
      if call.builtIn then st.rfs.length :: st.resfileHead else st.resfileHead ++ [st.rfs.length]
    else st.resfileHead
  sibufs := st.sibufs ++ l.sibufs

theorem addrBase_withNew {R : Rounding} {st : PreviewSrc} (call : ParseCall)
    (hknown : ∀ rf ∈ st.resfileHead, rf < st.rfs.length) :
    addrBase R (withNew st call) = addrBase R st := by
  unfold addrBase
  congr 2
  refine List.map_congr_left fun rf hrf => ?_
  simp [withNew, filelen, List.getElem?_append_left (hknown rf hrf)]

/-- A call that opens the file of a new resfile runs the loop. -/
theorem openResfile_eq {R : Rounding} {st : PreviewSrc} {call : ParseCall}
    (hknown : ∀ rf ∈ st.resfileHead, rf < st.rfs.length)
    (hfind : resfileFind st call.path = none) (hmem : call.out ≠ .noMem)
    (hopen : call.out ≠ .openErr) (hfstat : call.out ≠ .fstatErr) :
    openResfile R st call =
      (previewLoop st.rfs.length (st.files call.path).stSize call.out 0 0
        (addrBase R st) (st.files call.path).records).map (afterLoop st call) := by
  have hbase := addrBase_withNew (R := R) call hknown
  have hget : (st.rfs ++ [⟨call.path, call.builtIn, 0, 0⟩])[st.rfs.length]? =
      some ⟨call.path, call.builtIn, 0, 0⟩ := by simp
  unfold withNew at hbase
  simp only [openResfile, hfind, if_neg hmem, resfilePreview, hget, hopen, hfstat, or_self,
    if_false, hbase]
  cases previewLoop st.rfs.length (st.files call.path).stSize call.out 0 0
    (addrBase R st) (st.files call.path).records with
  | none => rfl
  | some l =>
    rcases hok : l.ok with _ | _ <;> simp [afterLoop, hok]

/-- Everything a call can do: nothing to the sibufs and the files, or a run of the loop. -/
theorem openResfile_cases {R : Rounding} {st st' : PreviewSrc} {call : ParseCall}
    (hknown : ∀ rf ∈ st.resfileHead, rf < st.rfs.length)
    (h : openResfile R st call = some st') :
    (st' = st ∨ st' = withNew st call) ∨
    (resfileFind st call.path = none ∧ call.out ≠ .noMem ∧ call.out ≠ .openErr ∧
      call.out ≠ .fstatErr ∧ ∃ l,
        previewLoop st.rfs.length (st.files call.path).stSize call.out 0 0
          (addrBase R st) (st.files call.path).records = some l ∧
        st' = afterLoop st call l) := by
  cases hfind : resfileFind st call.path with
  | some rf =>
    simp only [openResfile, hfind, Option.some.injEq] at h
    exact Or.inl (Or.inl h.symm)
  | none =>
    by_cases hmem : call.out = .noMem
    · simp only [openResfile, hfind, if_pos hmem, Option.some.injEq] at h
      exact Or.inl (Or.inl h.symm)
    · by_cases hopen : call.out = .openErr ∨ call.out = .fstatErr
      · simp only [openResfile, hfind, if_neg hmem, resfilePreview, if_pos hopen] at h
        simp only [List.getElem?_concat_length, Option.some.injEq] at h
        exact Or.inl (Or.inr h.symm)
      · rw [not_or] at hopen
        rw [openResfile_eq hknown hfind hmem hopen.1 hopen.2] at h
        obtain ⟨l, hl, rfl⟩ := Option.map_eq_some_iff.mp h
        exact Or.inr ⟨rfl, hmem, hopen.1, hopen.2, l, hl, rfl⟩

/-! ## The invariant -/

/-- What holds as long as the guard is met. -/
structure PreviewInv (R : Rounding) (st : PreviewSrc) : Prop where
  apart : st.sibufs.Pairwise (Apart Sibuf.loadAddr Sibuf.totalLen)
  inside : ∀ b ∈ st.sibufs, ∃ r, tableOf st b = some r ∧ TableInside b r.1
  nonempty : ∀ b ∈ st.sibufs, 0 < b.totalLen
  below : ∀ b ∈ st.sibufs, b.rf ∈ st.resfileHead → b.loadAddr + b.totalLen ≤ addrBase R st
  leftover : Leftover st → ∃ b ∈ st.sibufs, b.loadAddr = addrBase R st
  known : ∀ rf ∈ st.resfileHead, rf < st.rfs.length

/-- Disjoint ranges with their addresses inside give back every sibuf. -/
theorem PreviewInv.good {R : Rounding} {st : PreviewSrc} (hi : PreviewInv R st) :
    RangesGood st := by
  refine ⟨hi.apart, hi.inside, fun b hb r hr o ho hne => ?_⟩
  obtain ⟨r', hr', hin⟩ := hi.inside b hb
  have hrr : r' = r := Option.some.inj (hr'.symm.trans hr)
  subst hrr
  exact find?_of_apart hi.apart hb (hin o ho hne)

/-- A failed call before the loop only leaks a resfile. -/
theorem previewInv_withNew {R : Rounding} {st : PreviewSrc} (call : ParseCall)
    (hi : PreviewInv R st) : PreviewInv R (withNew st call) := by
  have hbase := addrBase_withNew (R := R) call hi.known
  have htable : ∀ b ∈ st.sibufs, tableOf (withNew st call) b = tableOf st b := by
    intro b hb
    obtain ⟨r, hr, -⟩ := hi.inside b hb
    obtain ⟨f, hf, -⟩ := Option.bind_eq_some_iff.mp hr
    have hlt : b.rf < st.rfs.length := (List.getElem?_eq_some_iff.mp hf).1
    simp [tableOf, withNew, List.getElem?_append_left hlt]
  refine ⟨hi.apart, fun b hb => ?_, hi.nonempty, fun b hb hrf => ?_, fun hl => ?_, fun rf hrf => ?_⟩
  · rw [htable b hb]
    exact hi.inside b hb
  · rw [hbase]
    exact hi.below b hb hrf
  · rw [hbase]
    exact hi.leftover hl
  · have := hi.known rf hrf
    simp only [withNew, List.length_append, List.length_singleton]
    omega

section AfterLoop

variable {R : Rounding} {st : PreviewSrc} {call : ParseCall}
  {l : LoopEnd (st.files call.path).records}

/-- The loop stopped before its first record, or it met the guard. -/
def LoopGuard (R : Rounding) (st : PreviewSrc) (call : ParseCall)
    (l : LoopEnd (st.files call.path).records) : Prop :=
  (l.sibufs = [] ∧ l.ok = false ∧ l.records = (st.files call.path).records) ∨
  (¬ Leftover st ∧ (∃ b ∈ l.sibufs, b.loadAddr = addrBase R st) ∧
    TablesFit (st.files call.path).stSize call.out 0 0 (addrBase R st)
      (st.files call.path).records)

/-- The older sibufs keep their tables: they belong to resfiles with other paths. -/
theorem tableOf_afterLoop_old (hi : PreviewInv R st) (hfind : resfileFind st call.path = none)
    (hg : LoopGuard R st call l) {b : Sibuf} (hb : b ∈ st.sibufs) :
    tableOf (afterLoop st call l) b = tableOf st b := by
  obtain ⟨r, hr, -⟩ := hi.inside b hb
  obtain ⟨f, hf, hrec⟩ := Option.bind_eq_some_iff.mp hr
  have hlt : b.rf < st.rfs.length := (List.getElem?_eq_some_iff.mp hf).1
  rw [hr]
  refine Option.bind_eq_some_iff.mpr ⟨f, ?_, ?_⟩
  · simp [afterLoop, List.getElem?_append_left hlt, hf]
  · by_cases hpath : f.path = call.path
    · rw [hpath] at hrec ⊢
      simp only [afterLoop, Function.update_self, File.after]
      rcases hg with ⟨-, -, hsame⟩ | ⟨hno, -, -⟩
      · rw [hsame]
        exact hrec
      · have hhead : b.rf ∈ st.resfileHead :=
          Classical.byContradiction fun hrf => hno ⟨b, hb, hrf⟩
        have := List.find?_eq_none.mp hfind b.rf hhead
        simp [hf, hpath] at this
    · simp only [afterLoop, Function.update_of_ne hpath]
      exact hrec

/-- A new sibuf finds its table in the records as the loop leaves them. -/
theorem tableOf_afterLoop_new {b : Sibuf} (hb : b.rf = st.rfs.length) :
    tableOf (afterLoop st call l) b = recordAt l.records b.offsOfResfile := by
  have hpath : ∀ f : Resfile, (afterLoop st call l).rfs[b.rf]? = some f → f.path = call.path := by
    intro f hf
    simp only [afterLoop, hb, List.getElem?_concat_length, Option.some.injEq] at hf
    rw [← hf]
    split <;> rfl
  have hsome : ∃ f, (afterLoop st call l).rfs[b.rf]? = some f := by
    simp [afterLoop, hb]
  obtain ⟨f, hf⟩ := hsome
  simp only [tableOf, hf, Option.bind_some, hpath f hf]
  simp [afterLoop, File.after]

/-- An added resfile raises the base by its rounded size. -/
theorem addrBase_afterLoop (hknown : ∀ rf ∈ st.resfileHead, rf < st.rfs.length) :
    addrBase R (afterLoop st call l) = addrBase R st +
      if l.ok then R.up (st.files call.path).stSize else 0 := by
  have hold : ∀ rf ∈ st.resfileHead,
      R.up (filelen (afterLoop st call l).rfs rf) = R.up (filelen st.rfs rf) := by
    intro rf hrf
    simp [afterLoop, filelen, List.getElem?_append_left (hknown rf hrf)]
  have hsum := congrArg List.sum (List.map_congr_left hold)
  have hnew : l.ok = true → filelen (afterLoop st call l).rfs st.rfs.length =
      (st.files call.path).stSize := by
    intro hok
    simp [afterLoop, filelen, hok]
  unfold addrBase
  by_cases hok : l.ok = true
  · have hhead : (afterLoop st call l).resfileHead =
        if call.builtIn then st.rfs.length :: st.resfileHead
        else st.resfileHead ++ [st.rfs.length] := by simp [afterLoop, hok]
    rw [if_pos hok, hhead]
    cases call.builtIn
    · simp only [Bool.false_eq_true, if_false, List.map_append, List.map_cons, List.map_nil,
        List.sum_append, List.sum_cons, List.sum_nil, hsum, hnew hok]
      omega
    · simp only [if_true, List.map_cons, List.sum_cons, hsum, hnew hok]
      omega
  · have hhead : (afterLoop st call l).resfileHead = st.resfileHead := by simp [afterLoop, hok]
    rw [if_neg hok, hhead, hsum, Nat.add_zero]

theorem mem_head_afterLoop {rf : Nat} : rf ∈ (afterLoop st call l).resfileHead ↔
    rf ∈ st.resfileHead ∨ (l.ok = true ∧ rf = st.rfs.length) := by
  cases hok : l.ok <;> cases hb : call.builtIn <;> simp [afterLoop, hok, hb, or_comm]

/-- **One preview under the guard keeps the invariant.** -/
theorem previewInv_afterLoop (hi : PreviewInv R st) (hfind : resfileFind st call.path = none)
    (hl : previewLoop st.rfs.length (st.files call.path).stSize call.out 0 0
      (addrBase R st) (st.files call.path).records = some l)
    (hg : LoopGuard R st call l) : PreviewInv R (afterLoop st call l) := by
  obtain ⟨hpair, hlaid⟩ := previewLoop_laid hl
  have hbase := addrBase_afterLoop (R := R) (l := l) hi.known
  have hmem : ∀ b, b ∈ (afterLoop st call l).sibufs ↔ b ∈ st.sibufs ∨ b ∈ l.sibufs :=
    fun b => List.mem_append
  have hnew : ∀ b ∈ l.sibufs, b.rf ∉ st.resfileHead := by
    intro b hb hrf
    have := hi.known b.rf hrf
    rw [(hlaid b hb).1] at this
    omega
  -- when the loop inserts something, everything older ends below the base
  have hold : ∀ b ∈ l.sibufs, ∀ a ∈ st.sibufs, a.loadAddr + a.totalLen ≤ addrBase R st := by
    intro b hb a ha
    rcases hg with ⟨hnil, -⟩ | ⟨hno, -, -⟩
    · simp [hnil] at hb
    · exact hi.below a ha (Classical.byContradiction fun hrf => hno ⟨a, ha, hrf⟩)
  refine ⟨?_, ?_, ?_, ?_, ?_, ?_⟩
  · refine List.pairwise_append.mpr ⟨hi.apart, hpair, fun a ha b hb => ?_⟩
    exact Or.inl (Nat.le_trans (hold b hb a ha) (hlaid b hb).2.1)
  · intro b hb
    rcases (hmem b).mp hb with hb | hb
    · rw [tableOf_afterLoop_old hi hfind hg hb]
      exact hi.inside b hb
    · rw [tableOf_afterLoop_new (hlaid b hb).1]
      rcases hg with ⟨hnil, -⟩ | ⟨-, -, hfit⟩
      · simp [hnil] at hb
      · exact (previewLoop_inside hl).mpr hfit b hb
  · intro b hb
    rcases (hmem b).mp hb with hb | hb
    · exact hi.nonempty b hb
    · exact (hlaid b hb).2.2.2.1
  · intro b hb hrf
    rw [hbase]
    rcases (hmem b).mp hb with hb | hb
    · rcases mem_head_afterLoop.mp hrf with hrf | ⟨-, hrf⟩
      · exact Nat.le_trans (hi.below b hb hrf) (Nat.le_add_right _ _)
      · -- an old sibuf does not belong to the new resfile
        obtain ⟨r, hr, -⟩ := hi.inside b hb
        obtain ⟨f, hf, -⟩ := Option.bind_eq_some_iff.mp hr
        have := (List.getElem?_eq_some_iff.mp hf).1
        omega
    · rcases mem_head_afterLoop.mp hrf with hrf | ⟨hok, -⟩
      · exact absurd hrf (hnew b hb)
      · have hend := (hlaid b hb).2.2.2.2
        have hsize := previewLoop_ok hl hok
        have hup := R.le_up (st.files call.path).stSize
        rw [if_pos hok]
        omega
  · rintro ⟨b, hb, hrf⟩
    rw [mem_head_afterLoop, not_or] at hrf
    have hok : ¬ l.ok = true := by
      intro hok
      rcases hg with ⟨-, hno, -⟩ | ⟨hno, -, -⟩
      · simp [hok] at hno
      · rcases (hmem b).mp hb with hb | hb
        · exact hno ⟨b, hb, hrf.1⟩
        · exact hrf.2 ⟨hok, (hlaid b hb).1⟩
    rw [hbase, if_neg hok, Nat.add_zero]
    rcases hg with ⟨hnil, -⟩ | ⟨-, ⟨b', hb', hload⟩, -⟩
    · have hb : b ∈ st.sibufs := by simpa [hnil] using (hmem b).mp hb
      obtain ⟨b', hb', hload⟩ := hi.leftover ⟨b, hb, hrf.1⟩
      exact ⟨b', (hmem b').mpr (Or.inl hb'), hload⟩
    · exact ⟨b', (hmem b').mpr (Or.inr hb'), hload⟩
  · intro rf hrf
    simp only [afterLoop, List.length_append, List.length_singleton]
    rcases mem_head_afterLoop.mp hrf with hrf | ⟨-, rfl⟩
    · have := hi.known rf hrf
      omega
    · omega

end AfterLoop

/-- A loop that is not to reach a record inserts nothing. -/
theorem previewLoop_early {rf stSize : Nat} {out : Outcome} {addr : Nat} {rs : List FileRecord}
    {l : LoopEnd rs} (h : previewLoop rf stSize out 0 0 addr rs = some l)
    (hno : ¬ (out ≠ .mmapErr 0 ∧ rs ≠ [])) : l.sibufs = [] ∧ l.ok = false ∧ l.records = rs := by
  cases rs with
  | nil =>
    unfold previewLoop at h
    split at h
    · cases h
      exact ⟨rfl, rfl, rfl⟩
    · cases h
  | cons r rs =>
    have hm : out = .mmapErr 0 := Classical.byContradiction fun hm => hno ⟨hm, by simp⟩
    rcases previewLoop_cases h with ⟨-, hok, hs, hrec⟩ | ⟨hm', -⟩ | ⟨hm', -⟩
    · exact ⟨hs, hok, hrec⟩
    · exact absurd hm hm'
    · exact absurd hm hm'

theorem previewInv_open {R : Rounding} {st st' : PreviewSrc} {call : ParseCall}
    (hi : PreviewInv R st) (hg : OpenGuard R st call) (h : openResfile R st call = some st') :
    PreviewInv R st' := by
  rcases openResfile_cases hi.known h with
    (rfl | rfl) | ⟨hfind, hmem, hopen, hfstat, l, hl, rfl⟩
  · exact hi
  · exact previewInv_withNew call hi
  · refine previewInv_afterLoop hi hfind hl ?_
    by_cases hr : call.out ≠ .mmapErr 0 ∧ (st.files call.path).records ≠ []
    · obtain ⟨hno, hfit⟩ := hg ⟨hfind, hmem, hopen, hfstat, hr.1, hr.2⟩
      exact Or.inr ⟨hno, previewLoop_first hl hr.2 hr.1, hfit⟩
    · exact Or.inl (previewLoop_early hl hr)

/-! ## Adjusting a sibuf -/

/-- An adjustment keeps the addresses of a table in the range. -/
theorem tableInside_adjust {b : Sibuf} {r r' : FileRecord} (h : adjustRecord r = some r')
    (hin : TableInside b r.1) : TableInside b r'.1 := by
  unfold adjustRecord at h
  split at h
  · cases h
  · rename_i objs hadj
    cases h
    intro o ho hne
    rcases (adjustTable_addr hadj).2 o ho with ⟨h0, -⟩ | ⟨x, hx, hxr, hxf⟩
    · exact absurd h0 hne
    · rw [← hxr]
      exact hin x hx (hxf hne)

/-- The record that an adjustment leaves at an offset. -/
theorem recordAt_adjustAt : ∀ {rs rs' : List FileRecord} {offs x : Nat} {r : FileRecord},
    adjustAt rs offs = some rs' → recordAt rs x = some r →
      ∃ r', recordAt rs' x = some r' ∧ (r' = r ∨ adjustRecord r = some r')
  | r₀ :: rs, rs', offs, x, r, h, hr => by
    unfold adjustAt at h
    unfold recordAt at hr
    split at h
    · obtain ⟨r₀', hr₀, rfl⟩ := Option.map_eq_some_iff.mp h
      split at hr
      · rename_i hx
        cases hr
        exact ⟨r₀', by simp [recordAt, hx], Or.inr hr₀⟩
      · rename_i hx
        rw [← total_adjustRecord hr₀] at hr
        exact ⟨r, by rw [recordAt, if_neg hx]; exact hr, Or.inl rfl⟩
    · split at h
      · cases h
      · obtain ⟨rs', hrs, rfl⟩ := Option.map_eq_some_iff.mp h
        split at hr
        · rename_i hx
          cases hr
          exact ⟨r₀, by simp [recordAt, hx], Or.inl rfl⟩
        · rename_i hx
          split at hr
          · cases hr
          · rename_i hlt
            obtain ⟨r', hr', hcase⟩ := recordAt_adjustAt hrs hr
            exact ⟨r', by rw [recordAt, if_neg hx, if_neg hlt]; exact hr', hcase⟩

theorem previewInv_adjust {R : Rounding} {st st' : PreviewSrc} {i : Nat} (hi : PreviewInv R st)
    (h : adjustSibuf st i = some st') : PreviewInv R st' := by
  unfold adjustSibuf at h
  split at h
  · cases h
  · rename_i b hb
    split at h
    · cases h
    · rename_i f hf
      split at h
      · cases h
      · obtain ⟨file, hfile, rfl⟩ := Option.map_eq_some_iff.mp h
        unfold File.adjust at hfile
        split at hfile
        · cases hfile
        · rename_i records hrecords
          cases hfile
          refine ⟨hi.apart, fun a ha => ?_, hi.nonempty, hi.below, hi.leftover, hi.known⟩
          obtain ⟨r, hr, hin⟩ := hi.inside a ha
          obtain ⟨g, hg, hrec⟩ := Option.bind_eq_some_iff.mp hr
          by_cases hpath : g.path = f.path
          · rw [hpath] at hrec
            obtain ⟨r', hr', hcase⟩ := recordAt_adjustAt hrecords hrec
            refine ⟨r', Option.bind_eq_some_iff.mpr ⟨g, hg, ?_⟩, ?_⟩
            · simpa [hpath] using hr'
            · rcases hcase with rfl | hadj
              · exact hin
              · exact tableInside_adjust hadj hin
          · refine ⟨r, Option.bind_eq_some_iff.mpr ⟨g, hg, ?_⟩, hin⟩
            simpa [Function.update_of_ne hpath] using hrec

theorem previewInv_step {R : Rounding} (st : PreviewSrc) (e : ResfileEvent) (st' : PreviewSrc)
    (hi : PreviewInv R st) (hg : PreviewGuard R st e) (h : parseResfile R st e = some st') :
    PreviewInv R st' := by
  cases e with
  | opens call => exact previewInv_open hi hg h
  | adjusts i => exact previewInv_adjust hi h

/-- Outside the guard a preview spoils the ranges. -/
theorem ranges_break {R : Rounding} (st : PreviewSrc) (e : ResfileEvent) (hi : PreviewInv R st)
    (hng : ¬ PreviewGuard R st e) :
    ∃ st', parseResfile R st e = some st' ∧ ¬ RangesGood st' := by
  cases e with
  | adjusts i => exact absurd trivial hng
  | opens call =>
  simp only [PreviewGuard, OpenGuard, Classical.not_imp, not_and_or] at hng
  obtain ⟨⟨hfind, hmem, hopen, hfstat, hmap, hne⟩, hbad⟩ := hng
  obtain ⟨l, hl⟩ := previewLoop_isSome st.rfs.length (st.files call.path).stSize call.out
    (st.files call.path).records 0 0 (addrBase R st) hne
    (by simpa using (st.files call.path).covered)
  refine ⟨afterLoop st call l, ?_, fun hgood => ?_⟩
  · rw [parseResfile, openResfile_eq hi.known hfind hmem hopen hfstat, hl]
    rfl
  obtain ⟨hpair, hlaid⟩ := previewLoop_laid hl
  rcases hbad with hleft | hfit
  · -- the leftover sibuf and the first new one both start at the base
    obtain ⟨a, ha, hload⟩ := hi.leftover (not_not.mp hleft)
    obtain ⟨b, hb, hload'⟩ := previewLoop_first hl hne hmap
    have hapart := (List.pairwise_append.mp hgood.apart).2.2 a ha b hb
    have hlow := hi.nonempty a ha
    have hlow' := (hlaid b hb).2.2.2.1
    unfold Apart at hapart
    omega
  · refine hfit ((previewLoop_inside hl).mp fun b hb => ?_)
    obtain ⟨r, hr, hin⟩ := hgood.inside b (List.mem_append_right st.sibufs hb)
    rw [tableOf_afterLoop_new (hlaid b hb).1] at hr
    exact ⟨r, hr, hin⟩

/-- **The ranges stay good along a run exactly when every preview meets the guard.** -/
theorem ranges_exact (R : Rounding) (files : String → File) (es : List ResfileEvent) :
    Visits (parseResfile R) RangesGood (.init files) es ↔
      Along (parseResfile R) (PreviewGuard R) (.init files) es := by
  refine visits_iff_along previewInv_step (fun _ hi => hi.good) ranges_break ?_
  refine ⟨?_, ?_, ?_, ?_, ?_, ?_⟩ <;> simp [PreviewSrc.init, Leftover]

/-- A record without objects, as the asm collector writes them. -/
def bareRecord : FileRecord :=
  ⟨⟨⟨4096, 32, 0, 0, 0, 6, 1, 3, ⟨1, 1, 1, 2⟩⟩, fun _ => 0, []⟩,
    ⟨rfl, by decide, by decide, by decide, by decide, Or.inl fun o ho => by cases ho⟩⟩

/-- A resfile with two records. -/
def twoRecords : File := ⟨[bareRecord, bareRecord], 8192, by decide⟩

/-- The preview of a resfile stops at its second record; the retry puts the first one at the same
    addresses again. -/
theorem retried_preview_overlaps : ¬ Visits (parseResfile .page) RangesGood
    (.init fun _ => twoRecords)
    [.opens ⟨"/w/r", false, .mmapErr 1⟩, .opens ⟨"/w/r", false, .done⟩] := by
  intro h
  have hruns : (exec (parseResfile .page) (.init fun _ => twoRecords)
      [.opens ⟨"/w/r", false, .mmapErr 1⟩, .opens ⟨"/w/r", false, .done⟩]).map
        (fun st => st.sibufs.map fun b => (b.loadAddr, b.totalLen)) =
      some [(0x1000000000, 4096), (0x1000000000, 4096), (0x1000001000, 4096)] := by rfl
  obtain ⟨st, hst, hs⟩ := Option.map_eq_some_iff.mp hruns
  have hgood := visits_iff_exec.mp h _ [] st (by simp) hst
  have hpairs : (st.sibufs.map fun b => (b.loadAddr, b.totalLen)).Pairwise
      (Apart Prod.fst Prod.snd) := List.pairwise_map.mpr hgood.apart
  rw [hs] at hpairs
  have hapart := (List.pairwise_cons.mp hpairs).1 _ List.mem_cons_self
  simp [Apart] at hapart

end Srcinv.Analysis
