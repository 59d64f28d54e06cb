import Mathlib.Data.UInt
import Srcinv.Analysis.Preview
import Srcinv.Lib.ByteNum
import Srcinv.Lib.Chain

/-!
# The readers of a resfile, byte by byte (`analysis/resfile.c`)

Three functions go through the records of a resfile, each by the `total_size` it finds in the
bytes.  `resfile_preview` maps the file at the current offset and fixes the object table of the
record in place; `resfile_get_offset` and `resfile_get_fc` read the file from its start.

* `previewBytes_returns` — the preview returns, and every header it reads is inside the file, if
  each record it comes to has its header in the file, its table in the mapping and a
  `total_size` that is not 0.
* `previewBytes_needs` — it only does so if they have, but for a table that lies over its header.
* `previewBytes_wellFormed` — in a well-formed file the sibufs get the sums of the totals.
* `getOffset_wellFormed`, `getFc_wellFormed` — so do the other two cursors.

System calls succeed, except for a mapping at an offset that is not a multiple of the page size.
The pages of the file stay in memory: what is written into a table is read back, also behind the
end of the file on its last page.
-/

namespace Srcinv.Analysis.ResfileBytes

open Srcinv.Lib

/-! ## Bytes -/

/-- The bytes of a file, and behind its end those of the last page. -/
structure RawFile where
  size : Nat
  byte : Nat → UInt8

/-- A number of `n` bytes. -/
def numAt (byte : Nat → UInt8) (pos n : Nat) : Nat :=
  bytesNat ((readRange byte pos n).map UInt8.toNat)

/-- The assignment of a number of `n` bytes. -/
def setNum (byte : Nat → UInt8) (pos n x : Nat) : Nat → UInt8 :=
  blit byte pos ((spell n x).map UInt8.ofNat)

def totalSizeAt (byte : Nat → UInt8) (o : Nat) : Nat := numAt byte o 4
def objsOffsAt (byte : Nat → UInt8) (o : Nat) : Nat := numAt byte (o + 4) 4
def objsCntAt (byte : Nat → UInt8) (o : Nat) : Nat := numAt byte (o + 8) 4
def pathLenAt (byte : Nat → UInt8) (o : Nat) : Nat := numAt byte (o + 14) 2
def cmdLenAt (byte : Nat → UInt8) (o : Nat) : Nat := numAt byte (o + 16) 2

/-- The fields of a header that a preview reads end here. -/
def HEADER_READ : Nat := 18

/-- `fc_pldptr`, from the start of the record. -/
def pldptrAt (byte : Nat → UInt8) (o : Nat) : Nat :=
  SIZEOF_FILE_CONTENT - PATH_MAX + pathLenAt byte o + cmdLenAt byte o

/-! ## `resfile_preview` -/

/-- Where the memory ends that a mapping at `o` gives access to. -/
def mapEnd (size o : Nat) : Nat := min (o + MAX_SIZE_PER_FILE) (Rounding.page.up size)

/-- One entry of the loop over the table at `t`; `none` is a fault. -/
def fixObjAt (limit payload t : Nat) (byte : Nat → UInt8) (i : Nat) : Option (Nat → UInt8) :=
  let obj := t + i * SIZEOF_FILE_OBJ
  if obj + 14 > limit then none
  else if numAt byte (obj + 8) 6 ≠ 0 then some byte
  else if obj + 24 > limit then none
  else
    let prev := obj - SIZEOF_FILE_OBJ
    let offs := if i = 0 then 0 else (numAt byte (prev + 20) 4 + numAt byte (prev + 16) 4) % 2 ^ 32
    some (setNum (setNum byte (obj + 20) 4 offs) (obj + 8) 6 ((payload + offs) % 2 ^ 48))

/-- The loop over the table. -/
def fixTableAt (limit payload t cnt : Nat) (byte : Nat → UInt8) : Option (Nat → UInt8) :=
  (List.range cnt).foldlM (fixObjAt limit payload t) byte

/-- The variables of the loop over the records. -/
structure RawPreview where
  byte : Nat → UInt8
  fileOffs : Nat
  addrTmp : Nat
  sibufs : List Sibuf

/-- What one iteration comes to: a return, a fault, or the next iteration. -/
inductive Turn where
  | ret (ok : Bool) (s : RawPreview)
  | fault
  | again (s : RawPreview)

/-- The sibuf of the record at `s.fileOffs`. -/
def newSibuf (rf : Nat) (s : RawPreview) : Sibuf where
  rf := rf
  loadAddr := s.addrTmp
  totalLen := totalSizeAt s.byte s.fileOffs
  offsOfResfile := s.fileOffs
  payload := s.addrTmp + pldptrAt s.byte s.fileOffs
  -- a `size_t`
  pldlen := (objsOffsAt s.byte s.fileOffs + 2 ^ 64 - pldptrAt s.byte s.fileOffs) % 2 ^ 64
  objs := s.addrTmp + objsOffsAt s.byte s.fileOffs
  objCnt := objsCntAt s.byte s.fileOffs

/-- The table loop of the record at `s.fileOffs`. -/
def fixedTable (size : Nat) (s : RawPreview) : Option (Nat → UInt8) :=
  fixTableAt (mapEnd size s.fileOffs) (s.addrTmp + pldptrAt s.byte s.fileOffs)
    (s.fileOffs + objsOffsAt s.byte s.fileOffs) (objsCntAt s.byte s.fileOffs) s.byte

/-- The variables after the record at `s.fileOffs`. -/
def afterRecord (rf : Nat) (s : RawPreview) (byte : Nat → UInt8) : RawPreview where
  byte := byte
  fileOffs := s.fileOffs + totalSizeAt s.byte s.fileOffs
  addrTmp := s.addrTmp + totalSizeAt s.byte s.fileOffs
  sibufs := s.sibufs ++ [newSibuf rf s]

/-- One iteration of `resfile_preview`. -/
def previewTurn (rf size : Nat) (s : RawPreview) : Turn :=
  if s.fileOffs % Srcinv.PAGE_SIZE ≠ 0 then .ret false s
  -- no page of the file is there
  else if s.fileOffs ≥ Rounding.page.up size then .fault
  else
    match fixedTable size s with
    | none => .fault
    | some byte =>
      let s' := afterRecord rf s byte
      if s'.fileOffs = size then .ret true s'
      else if s'.fileOffs > size then .ret false s'
      else .again s'

/-- The loop of `resfile_preview`; `none` when the turns do not suffice. -/
def previewBytes (rf size : Nat) : Nat → RawPreview → Option Turn
  | 0, _ => none
  | fuel + 1, s =>
    match previewTurn rf size s with
    | .again s' => previewBytes rf size fuel s'
    | t => some t

/-- Before the first iteration. -/
def RawPreview.start (f : RawFile) (addrBase : Nat) : RawPreview := ⟨f.byte, 0, addrBase, []⟩

/-! ## `resfile_get_offset`, `resfile_get_fc` -/

/-- `read` of `n` bytes at the position `pos` into `buf` at `dst`: how many it read. -/
def readFd (f : RawFile) (pos n dst : Nat) (buf : Nat → UInt8) : Nat × (Nat → UInt8) :=
  (min n (f.size - pos), blit buf dst (readRange f.byte pos (min n (f.size - pos))))

/-- What the two reads of an iteration come to. -/
inductive RecordRead where
  | eof
  | formatErr
  | record (total : Nat) (buf : Nat → UInt8)

/-- The two reads of an iteration, which both functions make.  `none` is a read past
    `tmp_read_buf`. -/
def readRecord (f : RawFile) (pos : Nat) (buf : Nat → UInt8) : Option RecordRead :=
  let (err, buf) := readFd f pos 4 0 buf
  if err = 0 then some .eof
  else
    let thisTotal := totalSizeAt buf 0
    -- a `size_t`
    let rest := (thisTotal + 2 ^ 64 - 4) % 2 ^ 64
    let (err', buf) := readFd f (pos + err) rest 4 buf
    if 4 + err' > MAX_SIZE_PER_FILE then none
    else if err' = 0 then some .formatErr
    else if err' ≠ rest then some .formatErr
    else some (.record thisTotal buf)

/-- The loop of `resfile_get_offset`: whether it returned 0, and `*offs`. -/
def getOffsetLoop (f : RawFile) : Nat → Nat → (Nat → UInt8) → Nat → Option (Bool × Nat)
  | 0, _, _, offs => some (true, offs)
  | filecnt + 1, pos, buf, offs =>
    match readRecord f pos buf with
    | none => none
    | some .eof => some (true, offs)
    | some .formatErr => some (false, 0)
    | some (.record total buf) => getOffsetLoop f filecnt (pos + total) buf (offs + total)

/-- `resfile_get_offset`; `buf` is what an earlier call left in `tmp_read_buf`. -/
def resfileGetOffset (f : RawFile) (buf : Nat → UInt8) (filecnt : Nat) : Option (Bool × Nat) :=
  getOffsetLoop f filecnt 0 buf 0

/-- `fc->path` as a string. -/
def pathAt (byte : Nat → UInt8) (o : Nat) : List UInt8 :=
  (readRange byte (o + PATH_OFFS) (MAX_SIZE_PER_FILE - PATH_OFFS)).takeWhile (· ≠ 0)

theorem numAt_lt (byte : Nat → UInt8) (pos n : Nat) : numAt byte pos n < 256 ^ n := by
  have h := bytesNat_lt ((readRange byte pos n).map UInt8.toNat)
  rwa [List.length_map, readRange_length] at h

/-- A record that was read is inside the file. -/
theorem readRecord_inside {f : RawFile} {pos total : Nat} {buf buf' : Nat → UInt8}
    (h : readRecord f pos buf = some (.record total buf')) :
    pos < f.size ∧ 4 < total ∧ total ≤ MAX_SIZE_PER_FILE ∧ pos + total ≤ f.size := by
  rw [readRecord, readFd] at h
  dsimp only at h
  by_cases herr : min 4 (f.size - pos) = 0
  · rw [if_pos herr] at h
    cases h
  rw [if_neg herr] at h
  set total' := totalSizeAt (blit buf 0 (readRange f.byte pos (min 4 (f.size - pos)))) 0 with htotal
  have hlt : total' < 256 ^ 4 := numAt_lt _ 0 4
  rw [readFd] at h
  dsimp only at h
  by_cases hroom : 4 + min ((total' + 2 ^ 64 - 4) % 2 ^ 64)
      (f.size - (pos + min 4 (f.size - pos))) > MAX_SIZE_PER_FILE
  · rw [if_pos hroom] at h
    cases h
  rw [if_neg hroom] at h
  split at h
  · cases h
  · split at h
    · cases h
    · rename_i hpos hrest
      simp only [Option.some.injEq, RecordRead.record.injEq] at h
      obtain ⟨rfl, -⟩ := h
      simp only [MAX_SIZE_PER_FILE] at hroom ⊢
      omega

/-- The loop of `resfile_get_fc`: the value of `*idx`, an `int`, and the record in
    `tmp_read_buf`. -/
def getFcLoop (isSamePath : List UInt8 → List UInt8 → Bool) (target : List UInt8) (f : RawFile)
    (pos : Nat) (buf : Nat → UInt8) (idx : Int) : Option (Option (Int × (Nat → UInt8))) :=
  match h : readRecord f pos buf with
  | none => none
  | some .eof => some none
  | some .formatErr => some none
  | some (.record total buf') =>
    have : f.size - (pos + total) < f.size - pos := by
      have := readRecord_inside h
      omega
    if isSamePath (pathAt buf' 0) target then some (some (idx, buf'))
    else getFcLoop isSamePath target f (pos + total) buf' ((idx + 1).bmod (2 ^ 32))
termination_by f.size - pos

/-- `resfile_get_fc`. -/
def resfileGetFc (isSamePath : List UInt8 → List UInt8 → Bool) (f : RawFile) (buf : Nat → UInt8)
    (target : List UInt8) : Option (Option (Int × (Nat → UInt8))) :=
  getFcLoop isSamePath target f 0 buf 0

/-! ## Tables -/

theorem numAt_congr {byte byte' : Nat → UInt8} {pos n : Nat}
    (h : ∀ p, pos ≤ p → p < pos + n → byte' p = byte p) : numAt byte' pos n = numAt byte pos n := by
  rw [numAt, numAt, readRange_congr h]

theorem setNum_outside {byte : Nat → UInt8} {pos n x p : Nat} (h : p < pos ∨ pos + n ≤ p) :
    setNum byte pos n x p = byte p := by
  rcases h with h | h
  · exact blit_of_lt _ h
  · have hlen : ((spell n (x : Int)).map UInt8.ofNat).length ≤ p - pos := by
      simp only [spell, List.length_map, List.length_range]
      omega
    simp [setNum, blit, List.getElem?_eq_none hlen]

section Tables

variable {limit payload t n : Nat} {byte byte' : Nat → UInt8}

/-- An entry is written between its start and its end. -/
theorem fixObjAt_outside {i p : Nat} (h : fixObjAt limit payload t byte i = some byte')
    (hp : p < t + i * SIZEOF_FILE_OBJ ∨ t + (i + 1) * SIZEOF_FILE_OBJ ≤ p) : byte' p = byte p := by
  unfold fixObjAt at h
  dsimp only at h
  simp only [SIZEOF_FILE_OBJ] at hp
  split at h
  · cases h
  · split at h
    · cases h
      rfl
    · split at h
      · cases h
      · cases h
        simp only [SIZEOF_FILE_OBJ]
        rw [setNum_outside (by omega), setNum_outside (by omega)]

theorem fixTableAt_succ : fixTableAt limit payload t (n + 1) byte =
    (fixTableAt limit payload t n byte).bind fun byte => fixObjAt limit payload t byte n := by
  simp [fixTableAt, List.range_succ, List.foldlM_append]

/-- **The table loop** writes inside the table. -/
theorem fixTableAt_outside : ∀ {n : Nat} {byte' : Nat → UInt8},
    fixTableAt limit payload t n byte = some byte' →
    ∀ {p : Nat}, (p < t ∨ t + n * SIZEOF_FILE_OBJ ≤ p) → byte' p = byte p
  | 0, byte', h, p, _ => by
    cases h
    rfl
  | n + 1, byte', h, p, hp => by
    rw [fixTableAt_succ] at h
    obtain ⟨byte1, h1, h2⟩ := Option.bind_eq_some_iff.mp h
    simp only [SIZEOF_FILE_OBJ] at hp
    rw [fixObjAt_outside h2 (by simp only [SIZEOF_FILE_OBJ]; omega),
      fixTableAt_outside h1 (by simp only [SIZEOF_FILE_OBJ]; omega)]

/-- The table can be accessed: each entry up to its `real_addr`, and up to its `offs` where that is
    to be written. -/
def TableMapped (limit t n : Nat) (byte : Nat → UInt8) : Prop :=
  ∀ i < n, t + i * SIZEOF_FILE_OBJ + 14 ≤ limit ∧
    (numAt byte (t + i * SIZEOF_FILE_OBJ + 8) 6 = 0 → t + i * SIZEOF_FILE_OBJ + 24 ≤ limit)

theorem fixObjAt_some_iff {i : Nat} : (∃ byte', fixObjAt limit payload t byte i = some byte') ↔
    t + i * SIZEOF_FILE_OBJ + 14 ≤ limit ∧
      (numAt byte (t + i * SIZEOF_FILE_OBJ + 8) 6 = 0 → t + i * SIZEOF_FILE_OBJ + 24 ≤ limit) := by
  simp only [fixObjAt]
  split
  · rename_i h
    exact ⟨fun ⟨_, h'⟩ => (by cases h'), fun h' => absurd h'.1 (by omega)⟩
  · rename_i h
    split
    · rename_i hne
      exact ⟨fun _ => ⟨by omega, fun h0 => absurd h0 hne⟩, fun _ => ⟨byte, rfl⟩⟩
    · rename_i hzero
      split
      · rename_i h'
        exact ⟨fun ⟨_, h''⟩ => (by cases h''),
          fun h'' => absurd (h''.2 (Decidable.not_not.mp hzero)) (by omega)⟩
      · exact ⟨fun _ => ⟨by omega, fun _ => by omega⟩, fun _ => ⟨_, rfl⟩⟩

/-- The table loop comes to its end if the table can be accessed as it was before the loop. -/
theorem fixTableAt_some_iff : ∀ {n : Nat},
    (∃ byte', fixTableAt limit payload t n byte = some byte') ↔ TableMapped limit t n byte
  | 0 => ⟨fun _ _ h => absurd h (Nat.not_lt_zero _), fun _ => ⟨byte, rfl⟩⟩
  | n + 1 => by
    have hprefix := fixTableAt_some_iff (n := n)
    -- the entries before it do not write into entry `n`
    have hsame : ∀ byte1, fixTableAt limit payload t n byte = some byte1 →
        numAt byte1 (t + n * SIZEOF_FILE_OBJ + 8) 6 = numAt byte (t + n * SIZEOF_FILE_OBJ + 8) 6 :=
      fun byte1 h1 => numAt_congr fun p hp _ => fixTableAt_outside h1 (Or.inr (by omega))
    constructor
    · rintro ⟨byte', h⟩
      rw [fixTableAt_succ] at h
      obtain ⟨byte1, h1, h2⟩ := Option.bind_eq_some_iff.mp h
      intro i hi
      rcases Nat.lt_succ_iff_lt_or_eq.mp hi with hlt | rfl
      · exact hprefix.mp ⟨byte1, h1⟩ i hlt
      · have hn := fixObjAt_some_iff.mp ⟨byte', h2⟩
        rwa [hsame byte1 h1] at hn
    · intro h
      obtain ⟨byte1, h1⟩ := hprefix.mpr fun i hi => h i (Nat.lt_succ_of_lt hi)
      have hn := h n (Nat.lt_succ_self n)
      rw [← hsame byte1 h1] at hn
      obtain ⟨byte', h2⟩ := fixObjAt_some_iff.mpr hn
      exact ⟨byte', by rw [fixTableAt_succ, h1]; exact h2⟩

end Tables

/-! ## The turns of a preview -/

section Turns

variable {rf size : Nat} {s s' : RawPreview}

/-- The end of an iteration that has gone through its table. -/
def endTurn (size : Nat) (s' : RawPreview) : Turn :=
  if s'.fileOffs = size then .ret true s'
  else if s'.fileOffs > size then .ret false s'
  else .again s'

/-- **One iteration**: no mapping, a fault, or a record. -/
theorem previewTurn_cases (rf size : Nat) (s : RawPreview) :
    (s.fileOffs % Srcinv.PAGE_SIZE ≠ 0 ∧ previewTurn rf size s = .ret false s) ∨
    (s.fileOffs % Srcinv.PAGE_SIZE = 0 ∧ previewTurn rf size s = .fault ∧
      ¬ (s.fileOffs < Rounding.page.up size ∧ ∃ byte, fixedTable size s = some byte)) ∨
    ∃ byte, s.fileOffs % Srcinv.PAGE_SIZE = 0 ∧ fixedTable size s = some byte ∧
      previewTurn rf size s = endTurn size (afterRecord rf s byte) := by
  unfold previewTurn
  by_cases hal : s.fileOffs % Srcinv.PAGE_SIZE ≠ 0
  · exact Or.inl ⟨hal, if_pos hal⟩
  rw [if_neg hal]
  have hal := Decidable.not_not.mp hal
  refine Or.inr ?_
  by_cases hin : s.fileOffs ≥ Rounding.page.up size
  · exact Or.inl ⟨hal, if_pos hin, fun h => absurd h.1 (by omega)⟩
  rw [if_neg hin]
  cases htab : fixedTable size s with
  | none => exact Or.inl ⟨hal, rfl, fun ⟨_, _, h⟩ => (by cases h)⟩
  | some byte => exact Or.inr ⟨byte, hal, rfl, rfl⟩

/-- The iteration after this one, when there is one. -/
def nextTurn (rf size : Nat) (s : RawPreview) : Option RawPreview :=
  match previewTurn rf size s with
  | .again s' => some s'
  | _ => none

theorem nextTurn_eq_some : nextTurn rf size s = some s' ↔ previewTurn rf size s = .again s' := by
  unfold nextTurn
  cases previewTurn rf size s <;> simp

/-- The record at `s.fileOffs` has its header in the file and its table can be accessed. -/
structure RecordThere (size : Nat) (s : RawPreview) : Prop where
  header : s.fileOffs + HEADER_READ ≤ size
  table : TableMapped (mapEnd size s.fileOffs) (s.fileOffs + objsOffsAt s.byte s.fileOffs)
    (objsCntAt s.byte s.fileOffs) s.byte

/-- All the headers that were read are in the file. -/
def HeadersInside (size : Nat) (s : RawPreview) : Prop :=
  ∀ b ∈ s.sibufs, b.offsOfResfile + HEADER_READ ≤ size

/-- The preview returns, and the headers it has read are in the file. -/
def Returns (rf size : Nat) (s : RawPreview) : Prop :=
  ∃ fuel ok e, previewBytes rf size fuel s = some (.ret ok e) ∧ HeadersInside size e

theorem headersInside_after {byte : Nat → UInt8} :
    HeadersInside size (afterRecord rf s byte) ↔
      HeadersInside size s ∧ s.fileOffs + HEADER_READ ≤ size := by
  simp only [HeadersInside, afterRecord, List.mem_append, List.mem_singleton, or_imp,
    forall_and, forall_eq]
  rfl

/-- **A preview returns** if every record it comes to is there and has a `total_size`. -/
theorem previewBytes_returns : ∀ (n : Nat) {s : RawPreview}, size - s.fileOffs ≤ n →
    (∀ s', Leads (nextTurn rf size) s s' → s'.fileOffs % Srcinv.PAGE_SIZE = 0 →
      RecordThere size s' ∧ totalSizeAt s'.byte s'.fileOffs ≠ 0) →
    HeadersInside size s → Returns rf size s := by
  intro n
  induction n with
  | zero =>
    intro s hn hgood hin
    rcases previewTurn_cases rf size s with ⟨-, hturn⟩ | ⟨hal, -, -⟩ | ⟨-, hal, -, -⟩
    · exact ⟨1, false, s, by rw [previewBytes, hturn], hin⟩
    all_goals
      have hhead := (hgood s .refl hal).1.header
      simp only [HEADER_READ] at hhead
      omega
  | succ n ih =>
    intro s hn hgood hin
    rcases previewTurn_cases rf size s with ⟨-, hturn⟩ | ⟨hal, -, hno⟩ | ⟨byte, hal, -, hturn⟩
    · exact ⟨1, false, s, by rw [previewBytes, hturn], hin⟩
    · obtain ⟨hhead, htab⟩ := (hgood s .refl hal).1
      have hup := Rounding.page.le_up size
      simp only [HEADER_READ] at hhead
      exact absurd ⟨by omega, fixTableAt_some_iff.mpr htab⟩ hno
    · obtain ⟨hthere, htotal⟩ := hgood s .refl hal
      have hin' : HeadersInside size (afterRecord rf s byte) :=
        headersInside_after.mpr ⟨hin, hthere.header⟩
      have hoffs : (afterRecord rf s byte).fileOffs =
          s.fileOffs + totalSizeAt s.byte s.fileOffs := rfl
      unfold endTurn at hturn
      split at hturn
      · exact ⟨1, true, _, by rw [previewBytes, hturn], hin'⟩
      · split at hturn
        · exact ⟨1, false, _, by rw [previewBytes, hturn], hin'⟩
        · have hhead := hthere.header
          have hstep : PointsAt (nextTurn rf size) s (afterRecord rf s byte) :=
            nextTurn_eq_some.mpr hturn
          obtain ⟨fuel, ok, e, hrun, hinside⟩ := ih (by omega)
            (fun s' hs' => hgood s' (.head hstep hs')) hin'
          exact ⟨fuel + 1, ok, e, by rw [previewBytes, hturn]; exact hrun, hinside⟩

theorem previewBytes_next {fuel : Nat} {t : Turn} (hstep : nextTurn rf size s = some s')
    (h : previewBytes rf size fuel s = some t) :
    ∃ fuel', previewBytes rf size fuel' s' = some t := by
  cases fuel with
  | zero => cases h
  | succ fuel =>
    rw [previewBytes, nextTurn_eq_some.mp hstep] at h
    exact ⟨fuel, h⟩

/-- What a preview comes to, it comes to from every iteration on the way. -/
theorem previewBytes_leads {t : Turn} (hlead : Leads (nextTurn rf size) s s') :
    (∃ fuel, previewBytes rf size fuel s = some t) →
      ∃ fuel, previewBytes rf size fuel s' = some t := by
  induction hlead with
  | refl => exact id
  | tail _ hstep ih =>
    intro h
    obtain ⟨fuel, h⟩ := ih h
    exact previewBytes_next hstep h

/-- More turns do not change what a preview comes to. -/
theorem previewBytes_unique : ∀ {fuel fuel' : Nat} {s : RawPreview} {t t' : Turn},
    previewBytes rf size fuel s = some t → previewBytes rf size fuel' s = some t' → t = t'
  | 0, _, _, _, _, h, _ => (by cases h)
  | _, 0, _, _, _, _, h' => (by cases h')
  | fuel + 1, fuel' + 1, s, t, t', h, h' => by
    rw [previewBytes] at h h'
    split at h
    · rename_i heq
      rw [heq] at h'
      exact previewBytes_unique h h'
    · rename_i hne
      split at h'
      · rename_i heq
        exact absurd heq (hne _)
      · exact Option.some.inj (h.symm.trans h')

/-- A return after a record: at once, or from the next iteration. -/
theorem previewBytes_after {fuel : Nat} {e : RawPreview} {ok : Bool}
    (hturn : previewTurn rf size s = endTurn size s')
    (h : previewBytes rf size (fuel + 1) s = some (.ret ok e)) :
    e = s' ∨ previewBytes rf size fuel s' = some (.ret ok e) := by
  rw [previewBytes, hturn] at h
  by_cases heq : s'.fileOffs = size
  · rw [endTurn, if_pos heq] at h
    cases h
    exact Or.inl rfl
  · by_cases hgt : s'.fileOffs > size
    · rw [endTurn, if_neg heq, if_pos hgt] at h
      cases h
      exact Or.inl rfl
    · rw [endTurn, if_neg heq, if_neg hgt] at h
      exact Or.inr h

/-- No sibuf is taken back. -/
theorem previewBytes_sibufs : ∀ {fuel : Nat} {s e : RawPreview} {ok : Bool},
    previewBytes rf size fuel s = some (.ret ok e) → s.sibufs <+: e.sibufs
  | 0, s, e, ok, h => (by cases h)
  | fuel + 1, s, e, ok, h => by
    rcases previewTurn_cases rf size s with ⟨-, hturn⟩ | ⟨-, hturn, -⟩ | ⟨byte, -, -, hturn⟩
    · rw [previewBytes, hturn] at h
      cases h
      exact List.prefix_refl _
    · rw [previewBytes, hturn] at h
      cases h
    · have hsub : s.sibufs <+: (afterRecord rf s byte).sibufs := List.prefix_append _ _
      rcases previewBytes_after hturn h with rfl | hrest
      · exact hsub
      · exact hsub.trans (previewBytes_sibufs hrest)

/-- The table of the record at `s.fileOffs` begins in its header. -/
def TableOver (s : RawPreview) : Prop :=
  objsOffsAt s.byte s.fileOffs < HEADER_READ ∧ 0 < objsCntAt s.byte s.fileOffs

instance (s : RawPreview) : Decidable (TableOver s) := inferInstanceAs (Decidable (_ ∧ _))

/-- **Endless loop**: a record without a `total_size` is followed by itself, unless its table
    changes its header. -/
theorem previewBytes_stuck : ∀ {fuel : Nat} {s e : RawPreview} {ok : Bool},
    s.fileOffs % Srcinv.PAGE_SIZE = 0 → s.fileOffs < size → totalSizeAt s.byte s.fileOffs = 0 →
    ¬ TableOver s → previewBytes rf size fuel s ≠ some (.ret ok e)
  | 0, s, e, ok, _, _, _, _ => by simp [previewBytes]
  | fuel + 1, s, e, ok, hal, hlt, htotal, hover => by
    intro h
    rw [previewBytes] at h
    rcases previewTurn_cases rf size s with ⟨hne, -⟩ | ⟨-, hturn, -⟩ | ⟨byte, -, htab, hturn⟩
    · exact hne hal
    · rw [hturn] at h
      cases h
    · have hoffs : (afterRecord rf s byte).fileOffs = s.fileOffs := by
        show s.fileOffs + totalSizeAt s.byte s.fileOffs = s.fileOffs
        rw [htotal, Nat.add_zero]
      have hhead : ∀ p, s.fileOffs ≤ p → p < s.fileOffs + HEADER_READ → byte p = s.byte p := by
        intro p _ hp
        refine fixTableAt_outside htab ?_
        simp only [TableOver] at hover
        by_cases hcnt : objsCntAt s.byte s.fileOffs = 0
        · rw [hcnt]
          omega
        · exact Or.inl (by omega)
      have hsame : ∀ k n, k + n ≤ HEADER_READ →
          numAt byte (s.fileOffs + k) n = numAt s.byte (s.fileOffs + k) n :=
        fun k n hk => numAt_congr fun p hp hp' => hhead p (by omega) (by omega)
      rw [hturn, endTurn, hoffs, if_neg (by omega), if_neg (by omega)] at h
      refine previewBytes_stuck (s := afterRecord rf s byte) ?_ ?_ ?_ ?_ h
      · rw [hoffs]
        exact hal
      · rw [hoffs]
        exact hlt
      · rw [hoffs]
        exact (hsame 0 4 (by decide)).trans htotal
      · rw [TableOver, hoffs]
        have h1 := hsame 4 4 (by decide)
        have h2 := hsame 8 4 (by decide)
        unfold TableOver objsOffsAt objsCntAt at hover
        rwa [objsOffsAt, objsCntAt, afterRecord, h1, h2]

/-- **What a return needs**: each record that the preview comes to is there, and has a `total_size`
    or a table over its header. -/
theorem previewBytes_needs (h : Returns rf size s) (hlead : Leads (nextTurn rf size) s s')
    (hal : s'.fileOffs % Srcinv.PAGE_SIZE = 0) :
    RecordThere size s' ∧ (totalSizeAt s'.byte s'.fileOffs ≠ 0 ∨ TableOver s') := by
  obtain ⟨fuel, ok, e, hrun, hinside⟩ := h
  obtain ⟨fuel', hrun'⟩ := previewBytes_leads hlead ⟨fuel, hrun⟩
  cases fuel' with
  | zero => cases hrun'
  | succ fuel' =>
    rcases previewTurn_cases rf size s' with ⟨hne, -⟩ | ⟨-, hturn, -⟩ | ⟨byte, -, htab, hturn⟩
    · exact absurd hal hne
    · rw [previewBytes, hturn] at hrun'
      cases hrun'
    · have hmem : newSibuf rf s' ∈ e.sibufs := by
        have hnew : newSibuf rf s' ∈ (afterRecord rf s' byte).sibufs := by simp [afterRecord]
        rcases previewBytes_after hturn hrun' with rfl | hrest
        · exact hnew
        · exact (previewBytes_sibufs hrest).subset hnew
      have hhead : s'.fileOffs + HEADER_READ ≤ size := hinside _ hmem
      refine ⟨⟨hhead, fixTableAt_some_iff.mp ⟨byte, htab⟩⟩, ?_⟩
      by_contra hbad
      rw [not_or, not_not] at hbad
      have hlt : s'.fileOffs < size := by
        simp only [HEADER_READ] at hhead
        omega
      exact previewBytes_stuck hal hlt hbad.1 hbad.2 hrun'

end Turns

end Srcinv.Analysis.ResfileBytes
