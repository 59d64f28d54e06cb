import Srcinv.Analysis.ResfileBytes

/-!
# The three cursors over a resfile (`analysis/resfile.c`)

In a well-formed file the records follow one another, each as long as its `total_size` says, with
path, payload and table inside.  The preview writes into the tables only.  So the offsets it gives
to the sibufs, the offsets that `resfile_get_offset` adds up and the records that `resfile_get_fc`
comes to are the same, before and after a preview.

* `previewBytes_records` — the sibufs of a well-formed file.
* `getOffsetLoop_records`, `getFcLoop_found`, `getFcLoop_missing` — the other two cursors.
* `readers_exact` — when all three are right.
-/

namespace Srcinv.Analysis.ResfileBytes

open Srcinv.Lib

/-! ## Well-formed files -/

/-- A well-formed record of `t` bytes at `o`. -/
structure RecordAt (byte : Nat → UInt8) (o t : Nat) : Prop where
  total : totalSizeAt byte o = t
  aligned : t % Srcinv.PAGE_SIZE = 0
  small : t ≤ MAX_SIZE_PER_FILE
  path : 0 ∈ readRange byte (o + PATH_OFFS) (pathLenAt byte o)
  payload : pldptrAt byte o ≤ objsOffsAt byte o
  table : objsOffsAt byte o + objsCntAt byte o * SIZEOF_FILE_OBJ ≤ t

/-- Records with these totals, one after the other from `o` on. -/
def RecordsAt (byte : Nat → UInt8) : Nat → List Nat → Prop
  | _, [] => True
  | o, t :: ts => RecordAt byte o t ∧ RecordsAt byte (o + t) ts

/-- A resfile of well-formed records. -/
structure WellFormed (f : RawFile) (totals : List Nat) : Prop where
  records : RecordsAt f.byte 0 totals
  covers : totals.sum = f.size

/-- The bytes at `o` are the header of `r`. -/
structure Spells (byte : Nat → UInt8) (o : Nat) (r : Record) : Prop where
  total : totalSizeAt byte o = r.hdr.totalSize
  objs_offs : objsOffsAt byte o = r.hdr.objsOffs
  objs_cnt : objsCntAt byte o = r.hdr.objsCnt
  path_len : pathLenAt byte o = r.hdr.pathLen
  cmd_len : cmdLenAt byte o = r.hdr.cmdLen

/-- **A record of the collector** is a well-formed record of bytes, once it is rounded to pages and
    has a path. -/
theorem recordAt_of_record {byte : Nat → UInt8} {o : Nat} {r : Record} (h : Spells byte o r)
    (hr : r.WellFormed) (haligned : r.hdr.totalSize % Srcinv.PAGE_SIZE = 0)
    (hpath : 0 ∈ readRange byte (o + PATH_OFFS) r.hdr.pathLen) :
    RecordAt byte o r.hdr.totalSize where
  total := h.total
  aligned := haligned
  small := hr.total_le
  path := by rwa [h.path_len]
  payload := by
    have hpay := hr.payload_end
    rw [pldptrAt, h.path_len, h.cmd_len, h.objs_offs]
    simp only [fcPldptr] at hpay
    omega
  table := by
    rw [h.objs_offs, h.objs_cnt, ← hr.count]
    exact hr.table_inside

theorem pldptrAt_ge (byte : Nat → UInt8) (o : Nat) :
    PATH_OFFS + pathLenAt byte o + 2 ≤ pldptrAt byte o := by
  simp only [pldptrAt, PATH_OFFS, SIZEOF_FILE_CONTENT, PATH_MAX]
  omega

section Heads

variable {byte byte' : Nat → UInt8} {o t : Nat}

/-- Nothing is changed before the payload of the record at `o`. -/
def SameHead (byte byte' : Nat → UInt8) (o : Nat) : Prop :=
  ∀ p, o ≤ p → p < o + pldptrAt byte o → byte' p = byte p

theorem SameHead.field (h : SameHead byte byte' o) {k n : Nat} (hk : k + n ≤ 24) :
    numAt byte' (o + k) n = numAt byte (o + k) n := by
  refine numAt_congr fun p hp hp' => h p (by omega) ?_
  have hge := pldptrAt_ge byte o
  simp only [PATH_OFFS] at hge
  omega

theorem SameHead.fields (h : SameHead byte byte' o) :
    totalSizeAt byte' o = totalSizeAt byte o ∧ objsOffsAt byte' o = objsOffsAt byte o ∧
      objsCntAt byte' o = objsCntAt byte o ∧ pathLenAt byte' o = pathLenAt byte o ∧
      pldptrAt byte' o = pldptrAt byte o := by
  have h0 : numAt byte' (o + 0) 4 = numAt byte (o + 0) 4 := h.field (by decide)
  have h4 : numAt byte' (o + 4) 4 = numAt byte (o + 4) 4 := h.field (by decide)
  have h8 : numAt byte' (o + 8) 4 = numAt byte (o + 8) 4 := h.field (by decide)
  have h14 : numAt byte' (o + 14) 2 = numAt byte (o + 14) 2 := h.field (by decide)
  have h16 : numAt byte' (o + 16) 2 = numAt byte (o + 16) 2 := h.field (by decide)
  refine ⟨h0, h4, h8, h14, ?_⟩
  rw [pldptrAt, pldptrAt, pathLenAt, pathLenAt, cmdLenAt, cmdLenAt, h14, h16]

theorem SameHead.pathRange (h : SameHead byte byte' o) :
    readRange byte' (o + PATH_OFFS) (pathLenAt byte o) =
      readRange byte (o + PATH_OFFS) (pathLenAt byte o) := by
  have hge := pldptrAt_ge byte o
  exact readRange_congr fun p hp hp' => h p (by omega) (by omega)

theorem SameHead.recordAt (h : SameHead byte byte' o) (hr : RecordAt byte o t) :
    RecordAt byte' o t := by
  obtain ⟨htotal, hoffs, hcnt, hlen, hpld⟩ := h.fields
  refine ⟨htotal.trans hr.total, hr.aligned, hr.small, ?_, ?_, ?_⟩
  · rw [hlen, h.pathRange]
    exact hr.path
  · rw [hpld, hoffs]
    exact hr.payload
  · rw [hoffs, hcnt]
    exact hr.table

end Heads

/-! ## The preview -/

/-- The records from `o` on keep their heads. -/
def SameHeads (byte byte' : Nat → UInt8) : Nat → List Nat → Prop
  | _, [] => True
  | o, t :: ts => SameHead byte byte' o ∧ SameHeads byte byte' (o + t) ts

theorem RecordsAt.congr {byte byte' : Nat → UInt8} : ∀ {totals : List Nat} {o : Nat},
    RecordsAt byte o totals → SameHeads byte byte' o totals → RecordsAt byte' o totals
  | [], _, _, _ => trivial
  | _ :: _, _, hr, hs => ⟨hs.1.recordAt hr.1, hr.2.congr hs.2⟩

theorem RecordAt.fits {byte : Nat → UInt8} {o t : Nat} (h : RecordAt byte o t) :
    PATH_OFFS + pathLenAt byte o + 2 ≤ t := by
  have hge := pldptrAt_ge byte o
  have hpay := h.payload
  have htab := h.table
  omega

/-- What lies behind `o` and is not changed keeps its records. -/
theorem sameHeads_of_behind {byte byte' : Nat → UInt8} : ∀ {totals : List Nat} {o : Nat},
    (∀ p, o ≤ p → byte' p = byte p) → SameHeads byte byte' o totals
  | [], _, _ => trivial
  | _ :: _, _, h => ⟨fun p hp _ => h p hp, sameHeads_of_behind fun p hp => h p (by omega)⟩

theorem SameHeads.trans {byte byte' byte'' : Nat → UInt8} : ∀ {totals : List Nat} {o : Nat},
    SameHeads byte byte' o totals → SameHeads byte' byte'' o totals →
    SameHeads byte byte'' o totals
  | [], _, _, _ => trivial
  | _ :: _, _, h, h' => by
    obtain ⟨-, -, -, -, hpld⟩ := h.1.fields
    refine ⟨fun p hp hp' => ?_, h.2.trans h'.2⟩
    rw [h'.1 p hp (by rwa [hpld]), h.1 p hp hp']

section Preview

variable {rf size t : Nat} {s : RawPreview}

/-- A well-formed record is there. -/
theorem RecordAt.there (h : RecordAt s.byte s.fileOffs t) (hend : s.fileOffs + t ≤ size) :
    RecordThere size s := by
  have hge := h.fits
  have htab := h.table
  have hsmall := h.small
  have hup := Rounding.page.le_up size
  refine ⟨by simp only [HEADER_READ, PATH_OFFS] at hge ⊢; omega, fun i hi => ?_⟩
  -- the entry ends in the record, and the record in the file and in the mapping
  have hentry : objsOffsAt s.byte s.fileOffs + i * SIZEOF_FILE_OBJ + 24 ≤ t := by
    simp only [SIZEOF_FILE_OBJ] at htab ⊢
    omega
  have hlimit : s.fileOffs + t ≤ mapEnd size s.fileOffs := le_min (by omega) (by omega)
  exact ⟨by omega, fun _ => by omega⟩

/-- The table of a well-formed record lies behind its head and before the next record. -/
theorem RecordAt.outside {byte' : Nat → UInt8} (h : RecordAt s.byte s.fileOffs t)
    (hfix : fixedTable size s = some byte') {p : Nat}
    (hp : p < s.fileOffs + pldptrAt s.byte s.fileOffs ∨ s.fileOffs + t ≤ p) :
    byte' p = s.byte p := by
  have hpay := h.payload
  have htab := h.table
  exact fixTableAt_outside hfix (by omega)

/-- The offsets of records with these totals. -/
def recordOffsets (o : Nat) (totals : List Nat) : List Nat :=
  (List.range totals.length).map fun k => o + startOf totals k

theorem recordOffsets_cons (o t : Nat) (totals : List Nat) :
    recordOffsets o (t :: totals) = o :: recordOffsets (o + t) totals := by
  simp [recordOffsets, List.range_succ_eq_map, List.map_map, Function.comp_def,
    startOf_cons_succ, Nat.add_assoc]

/-- **One iteration at a well-formed record** goes to the next record, and changes only bytes
    between the head of this one and the next one. -/
theorem previewTurn_record (hr : RecordAt s.byte s.fileOffs t)
    (hal : s.fileOffs % Srcinv.PAGE_SIZE = 0) (hend : s.fileOffs + t ≤ size) :
    ∃ s', previewTurn rf size s = endTurn size s' ∧
      s'.fileOffs = s.fileOffs + t ∧
      s'.sibufs.map Sibuf.offsOfResfile =
        s.sibufs.map Sibuf.offsOfResfile ++ [s.fileOffs] ∧
      (∀ p, p < s.fileOffs + pldptrAt s.byte s.fileOffs ∨ s.fileOffs + t ≤ p →
        s'.byte p = s.byte p) := by
  have hthere := hr.there hend
  obtain ⟨byte, hfix⟩ : ∃ byte, fixedTable size s = some byte :=
    fixTableAt_some_iff.mpr hthere.table
  have hhead := hthere.header
  have hup := Rounding.page.le_up size
  simp only [HEADER_READ] at hhead
  rcases previewTurn_cases rf size s with ⟨hne, -⟩ | ⟨-, -, hno⟩ | ⟨byte', -, hfix', hturn⟩
  · exact absurd hal hne
  · exact absurd ⟨by omega, byte, hfix⟩ hno
  · refine ⟨afterRecord rf s byte', hturn, ?_, ?_, fun p hp => hr.outside hfix' hp⟩
    · rw [← hr.total]
      rfl
    · simp [afterRecord, newSibuf]

/-- **The preview of well-formed records** returns 0, gives each sibuf the offset of its record and
    keeps the heads. -/
theorem previewBytes_records : ∀ {totals : List Nat} {s : RawPreview}, totals ≠ [] →
    s.fileOffs % Srcinv.PAGE_SIZE = 0 → RecordsAt s.byte s.fileOffs totals →
    s.fileOffs + totals.sum = size →
    ∃ fuel e, previewBytes rf size fuel s = some (.ret true e) ∧
      e.sibufs.map Sibuf.offsOfResfile =
        s.sibufs.map Sibuf.offsOfResfile ++ recordOffsets s.fileOffs totals ∧
      (∀ p < s.fileOffs, e.byte p = s.byte p) ∧ SameHeads s.byte e.byte s.fileOffs totals
  | [], s, hne, _, _, _ => absurd rfl hne
  | t :: ts, s, _, hal, hrec, hsum => by
    obtain ⟨hr, hrest⟩ := hrec
    rw [List.sum_cons] at hsum
    obtain ⟨s', hturn, hoffs, hsibufs, hsame⟩ :=
      @previewTurn_record rf size t s hr hal (by omega)
    have hhead : SameHead s.byte s'.byte s.fileOffs := fun p _ hp => hsame p (Or.inl hp)
    have hbehind : SameHeads s.byte s'.byte (s.fileOffs + t) ts :=
      sameHeads_of_behind fun p hp => hsame p (Or.inr hp)
    cases ts with
    | nil =>
      refine ⟨1, s', ?_, ?_, fun p hp => hsame p (Or.inl (by omega)), hhead, trivial⟩
      · rw [previewBytes, hturn, endTurn, if_pos (by rw [hoffs]; simpa using hsum)]
      · rw [hsibufs]
        rfl
    | cons t' ts' =>
      have hfits := hrest.1.fits
      rw [List.sum_cons] at hsum
      obtain ⟨fuel, e, hrun, hmap, hbefore, hheads⟩ :=
        previewBytes_records (s := s') (List.cons_ne_nil t' ts')
          (by rw [hoffs, Nat.add_mod, hal, hr.aligned]; rfl)
          (by rw [hoffs]; exact hrest.congr hbehind) (by rw [hoffs, List.sum_cons]; omega)
      rw [hoffs] at hmap hbefore hheads
      refine ⟨fuel + 1, e, ?_, ?_, fun p hp => ?_, fun p hp hp' => ?_, hbehind.trans hheads⟩
      · rw [previewBytes, hturn, endTurn, if_neg (by omega), if_neg (by omega)]
        exact hrun
      · rw [hmap, hsibufs, recordOffsets_cons s.fileOffs t, List.append_assoc]
        rfl
      · rw [hbefore p (by omega), hsame p (Or.inl (by omega))]
      · have hpay := hr.payload
        have htab := hr.table
        rw [hbefore p (by omega), hhead p hp hp']

end Preview

/-! ## The reads -/

section Reads

variable {f : RawFile} {o t : Nat}

/-- Both reads of a well-formed record succeed, and leave its bytes in the buffer. -/
theorem readRecord_record (h : RecordAt f.byte o t) (hend : o + t ≤ f.size) (buf : Nat → UInt8) :
    ∃ buf', readRecord f o buf = some (.record t buf') ∧
      readRange buf' 0 t = readRange f.byte o t := by
  have hfits := h.fits
  have hsmall := h.small
  simp only [PATH_OFFS] at hfits
  simp only [MAX_SIZE_PER_FILE] at hsmall
  have hfour : min 4 (f.size - o) = 4 := by omega
  set buf1 := blit buf 0 (readRange f.byte o 4) with hbuf1
  have hhead : readRange buf1 0 4 = readRange f.byte o 4 := by
    have hblit := readRange_blit buf 0 (readRange f.byte o 4)
    rwa [readRange_length] at hblit
  have htotal : totalSizeAt buf1 0 = t := by
    rw [← h.total, totalSizeAt, totalSizeAt, numAt, numAt, hhead]
  have hrest : (t + 2 ^ 64 - 4) % 2 ^ 64 = t - 4 := by omega
  have hmin : min (t - 4) (f.size - (o + 4)) = t - 4 := by omega
  refine ⟨blit buf1 4 (readRange f.byte (o + 4) (t - 4)), ?_, ?_⟩
  · rw [readRecord, readFd]
    dsimp only
    rw [hfour, if_neg (by decide), ← hbuf1, htotal, hrest, readFd]
    dsimp only
    rw [hmin, if_neg (by simp only [MAX_SIZE_PER_FILE]; omega), if_neg (by omega),
      if_neg (fun hne => hne rfl)]
  · have hheld : readRange buf1 0 (readRange f.byte o 4).length = readRange f.byte o 4 := by
      rw [readRange_length, hhead]
    have hall := readRange_blit_end hheld (readRange f.byte (o + 4) (t - 4))
    rw [List.length_append, readRange_length, readRange_length, ← readRange_add,
      show 4 + (t - 4) = t by omega] at hall
    rw [← hall]

theorem readRecord_eof (buf : Nat → UInt8) : readRecord f f.size buf = some .eof := by
  simp [readRecord, readFd]

/-- **`resfile_get_offset`** adds up the totals. -/
theorem getOffsetLoop_records : ∀ {totals : List Nat} {o k : Nat} (buf : Nat → UInt8) (offs : Nat),
    RecordsAt f.byte o totals → o + totals.sum ≤ f.size → k ≤ totals.length →
    getOffsetLoop f k o buf offs = some (true, offs + startOf totals k)
  | totals, o, 0, buf, offs, _, _, _ => rfl
  | t :: ts, o, k + 1, buf, offs, hrec, hsum, hk => by
    rw [List.sum_cons] at hsum
    obtain ⟨buf', hread, -⟩ := readRecord_record hrec.1 (by omega) buf
    rw [getOffsetLoop, hread]
    dsimp only
    rw [getOffsetLoop_records buf' (offs + t) hrec.2 (by omega) (Nat.le_of_succ_le_succ hk),
      startOf_cons_succ, Nat.add_assoc]

theorem takeWhile_append {p : UInt8 → Bool} : ∀ {l : List UInt8} (r : List UInt8),
    (∃ a ∈ l, p a = false) → (l ++ r).takeWhile p = l.takeWhile p
  | [], _, h => by
    obtain ⟨a, ha, -⟩ := h
    cases ha
  | a :: l, r, h => by
    cases hp : p a with
    | false => simp [hp]
    | true =>
      have hl : ∃ a ∈ l, p a = false := by
        obtain ⟨b, hb, hpb⟩ := h
        rcases List.mem_cons.mp hb with rfl | hb
        · rw [hp] at hpb
          cases hpb
        · exact ⟨b, hb, hpb⟩
      rw [List.cons_append, List.takeWhile_cons, List.takeWhile_cons, if_pos hp, if_pos hp,
        takeWhile_append r hl]

/-- The path of a well-formed record ends in its region. -/
theorem pathAt_region {byte : Nat → UInt8} {n : Nat} (hn : n ≤ MAX_SIZE_PER_FILE - PATH_OFFS)
    (h : 0 ∈ readRange byte (o + PATH_OFFS) n) :
    pathAt byte o = (readRange byte (o + PATH_OFFS) n).takeWhile (· ≠ 0) := by
  obtain ⟨m, hm⟩ := Nat.exists_eq_add_of_le hn
  rw [pathAt, hm, readRange_add]
  exact takeWhile_append _ ⟨0, h, by decide⟩

/-- Where the bytes of a well-formed record are, its path is. -/
theorem RecordAt.pathAt_eq {byte : Nat → UInt8} {o' : Nat} (h : RecordAt f.byte o t)
    (hsame : readRange byte o' t = readRange f.byte o t) : pathAt byte o' = pathAt f.byte o := by
  have hfits := h.fits
  have hsmall := h.small
  have hregion : readRange byte (o' + PATH_OFFS) (pathLenAt f.byte o) =
      readRange f.byte (o + PATH_OFFS) (pathLenAt f.byte o) := by
    obtain ⟨m, hm⟩ := Nat.exists_eq_add_of_le (show PATH_OFFS + pathLenAt f.byte o ≤ t by omega)
    rw [hm, readRange_add, readRange_add, readRange_add, readRange_add f.byte] at hsame
    have h1 := (List.append_inj hsame (by simp)).1
    exact (List.append_inj h1 (by simp)).2
  have hpath' : pathAt byte o' =
      (readRange byte (o' + PATH_OFFS) (pathLenAt f.byte o)).takeWhile (· ≠ 0) :=
    pathAt_region (by omega) (by rw [hregion]; exact h.path)
  rw [hpath', hregion, pathAt_region (by omega) h.path]

end Reads

section Fc

variable {f : RawFile} {isSamePath : List UInt8 → List UInt8 → Bool} {target : List UInt8}

theorem getFcLoop_record {o t : Nat} {idx : Int} (h : RecordAt f.byte o t) (hend : o + t ≤ f.size)
    (buf : Nat → UInt8) : ∃ buf', readRange buf' 0 t = readRange f.byte o t ∧
      getFcLoop isSamePath target f o buf idx =
        if isSamePath (pathAt f.byte o) target then some (some (idx, buf'))
        else getFcLoop isSamePath target f (o + t) buf' ((idx + 1).bmod (2 ^ 32)) := by
  obtain ⟨buf', hread, hsame⟩ := readRecord_record h hend buf
  refine ⟨buf', hsame, ?_⟩
  rw [← h.pathAt_eq hsame]
  conv_lhs => unfold getFcLoop
  split
  all_goals
    rename_i heq
    rw [hread] at heq
    cases heq
  rfl

/-- **`resfile_get_fc`** finds the first record with the path; it counts in an `int`. -/
theorem getFcLoop_found {totals : List Nat} {o k : Nat} (buf : Nat → UInt8) (idx : Int)
    (hrec : RecordsAt f.byte o totals) (hsum : o + totals.sum ≤ f.size) (hk : k < totals.length)
    (hmatch : isSamePath (pathAt f.byte (o + startOf totals k)) target = true)
    (hfirst : ∀ j < k, isSamePath (pathAt f.byte (o + startOf totals j)) target = false) :
    ∃ buf', getFcLoop isSamePath target f o buf (idx.bmod (2 ^ 32)) =
        some (some ((idx + k).bmod (2 ^ 32), buf')) ∧
      readRange buf' 0 totals[k] = readRange f.byte (o + startOf totals k) totals[k] := by
  induction totals generalizing o k buf idx with
  | nil => exact absurd hk (Nat.not_lt_zero k)
  | cons t ts ih =>
    rw [List.sum_cons] at hsum
    cases k with
    | zero =>
      obtain ⟨buf', hsame, hloop⟩ := getFcLoop_record hrec.1 (by omega) buf
      refine ⟨buf', ?_, hsame⟩
      have hhere : isSamePath (pathAt f.byte o) target = true := hmatch
      rw [hloop, if_pos hhere, Nat.cast_zero, Int.add_zero]
    | succ k =>
      obtain ⟨buf', -, hloop⟩ := getFcLoop_record hrec.1 (by omega) buf
      have hzero : isSamePath (pathAt f.byte o) target = false := hfirst 0 (Nat.zero_lt_succ k)
      rw [startOf_cons_succ, ← Nat.add_assoc] at hmatch ⊢
      obtain ⟨buf'', hrest, hsame⟩ := ih buf' (idx + 1) hrec.2 (by omega)
        (Nat.lt_of_succ_lt_succ hk) hmatch fun j hj => by
          have hj' := hfirst (j + 1) (by omega)
          rwa [startOf_cons_succ, ← Nat.add_assoc] at hj'
      have hcount : (idx.bmod (2 ^ 32) + 1).bmod (2 ^ 32) = (idx + 1).bmod (2 ^ 32) :=
        Int.bmod_add_bmod
      have hidx : idx + 1 + (k : Int) = idx + ((k + 1 : Nat) : Int) := by
        push_cast
        ring
      refine ⟨buf'', ?_, hsame⟩
      rw [hloop, hzero, hcount, ← hidx]
      exact hrest

theorem getFcLoop_missing {totals : List Nat} {o : Nat} (buf : Nat → UInt8) (idx : Int)
    (hrec : RecordsAt f.byte o totals) (hsum : o + totals.sum = f.size)
    (hnone : ∀ k < totals.length,
      isSamePath (pathAt f.byte (o + startOf totals k)) target = false) :
    getFcLoop isSamePath target f o buf idx = some none := by
  induction totals generalizing o buf idx with
  | nil =>
    have heof : readRecord f o buf = some .eof := by
      rw [show o = f.size from hsum]
      exact readRecord_eof buf
    unfold getFcLoop
    split
    · rename_i heq
      rw [heof] at heq
      cases heq
    · rfl
    · rfl
    · rename_i heq
      rw [heof] at heq
      cases heq
  | cons t ts ih =>
    rw [List.sum_cons] at hsum
    obtain ⟨buf', -, hloop⟩ := getFcLoop_record hrec.1 (by omega) buf
    have hzero : isSamePath (pathAt f.byte o) target = false := hnone 0 (Nat.zero_lt_succ _)
    rw [hloop, hzero]
    refine ih buf' _ hrec.2 (by omega) fun k hk => ?_
    have hk' := hnone (k + 1) (Nat.succ_lt_succ hk)
    rwa [startOf_cons_succ, ← Nat.add_assoc] at hk'

end Fc

/-! ## All three -/

/-- `k` is the first record of the path. -/
structure FirstMatch (isSamePath : List UInt8 → List UInt8 → Bool) (f : RawFile)
    (totals : List Nat) (target : List UInt8) (k : Nat) : Prop where
  lt : k < totals.length
  here : isSamePath (pathAt f.byte (startOf totals k)) target = true
  first : ∀ j < k, isSamePath (pathAt f.byte (startOf totals j)) target = false

/-- `resfile_get_offset` gives the offsets of the sibufs, and behind them the length of the file. -/
def OffsetsRight (f : RawFile) (sibufs : List Sibuf) : Prop :=
  ∀ buf, (∀ k b, sibufs[k]? = some b → resfileGetOffset f buf k = some (true, b.offsOfResfile)) ∧
    resfileGetOffset f buf sibufs.length = some (true, f.size)

/-- `resfile_get_fc` gives the number and the bytes of the first record of the path. -/
def FcRight (isSamePath : List UInt8 → List UInt8 → Bool) (f : RawFile) (totals : List Nat) :
    Prop :=
  ∀ buf target,
    (∀ k, FirstMatch isSamePath f totals target k →
      ∃ buf', resfileGetFc isSamePath f buf target = some (some ((k : Int), buf')) ∧
        readRange buf' 0 (totals.getD k 0) =
          readRange f.byte (startOf totals k) (totals.getD k 0)) ∧
    ((¬ ∃ k, FirstMatch isSamePath f totals target k) →
      resfileGetFc isSamePath f buf target = some none)

/-- **The readers meet their purpose** on `f`.  The preview may come before the other two or after
    them. -/
structure ReadersRight (isSamePath : List UInt8 → List UInt8 → Bool) (rf addrBase : Nat)
    (f : RawFile) : Prop where
  returns : Returns rf f.size (RawPreview.start f addrBase)
  offsets : ∀ totals, WellFormed f totals → ∀ fuel ok e,
    previewBytes rf f.size fuel (RawPreview.start f addrBase) = some (.ret ok e) →
      e.sibufs.length = totals.length ∧ OffsetsRight f e.sibufs ∧
        OffsetsRight ⟨f.size, e.byte⟩ e.sibufs
  fc : ∀ totals, WellFormed f totals → FcRight isSamePath f totals

/-- The records of a path have numbers that an `int` can hold. -/
def FewRecords (isSamePath : List UInt8 → List UInt8 → Bool) (f : RawFile) : Prop :=
  ∀ totals, WellFormed f totals → ∀ target k, FirstMatch isSamePath f totals target k → k < 2 ^ 31

theorem resfileGetOffset_wellFormed {f : RawFile} {totals : List Nat} (h : WellFormed f totals)
    {k : Nat} (hk : k ≤ totals.length) (buf : Nat → UInt8) :
    resfileGetOffset f buf k = some (true, startOf totals k) := by
  have hloop := getOffsetLoop_records buf 0 h.records (by rw [h.covers]; omega) hk
  rwa [Nat.zero_add] at hloop

theorem offsetsRight_of_wellFormed {f : RawFile} {totals : List Nat} {sibufs : List Sibuf}
    (h : WellFormed f totals)
    (hoffs : sibufs.map Sibuf.offsOfResfile = recordOffsets 0 totals) : OffsetsRight f sibufs := by
  have hlen : sibufs.length = totals.length := by
    simpa [recordOffsets] using congrArg List.length hoffs
  refine fun buf => ⟨fun k b hb => ?_, ?_⟩
  · obtain ⟨hk, -⟩ := List.getElem?_eq_some_iff.mp hb
    have hoff : b.offsOfResfile = startOf totals k := by
      have hget := congrArg (·[k]?) hoffs
      simp only [List.getElem?_map, hb, Option.map_some, recordOffsets, List.getElem?_range
        (show k < totals.length by omega), Nat.zero_add, Option.some.injEq] at hget
      exact hget
    rw [hoff]
    exact resfileGetOffset_wellFormed h (by omega) buf
  · rw [hlen, resfileGetOffset_wellFormed h (Nat.le_refl _) buf, ← h.covers, startOf,
      List.take_length]

/-- A preview of a well-formed file. -/
theorem preview_wellFormed {f : RawFile} {totals : List Nat} (h : WellFormed f totals)
    {rf addrBase fuel : Nat} {ok : Bool} {e : RawPreview}
    (hrun : previewBytes rf f.size fuel (RawPreview.start f addrBase) = some (.ret ok e)) :
    e.sibufs.map Sibuf.offsOfResfile = recordOffsets 0 totals ∧
      WellFormed ⟨f.size, e.byte⟩ totals := by
  cases totals with
  | nil =>
    -- an empty file has no page to read a header from
    have hsize : f.size = 0 := h.covers.symm
    have hfault : previewTurn rf f.size (RawPreview.start f addrBase) = .fault := by
      rw [hsize]
      rfl
    cases fuel with
    | zero => cases hrun
    | succ fuel =>
      rw [previewBytes, hfault] at hrun
      cases hrun
  | cons t ts =>
    have hcovers : 0 + (t :: ts).sum = f.size := (Nat.zero_add _).trans h.covers
    have hrecords : ∃ fuel e,
        previewBytes rf f.size fuel (RawPreview.start f addrBase) = some (.ret true e) ∧
          e.sibufs.map Sibuf.offsOfResfile = [] ++ recordOffsets 0 (t :: ts) ∧
          (∀ p < 0, e.byte p = f.byte p) ∧ SameHeads f.byte e.byte 0 (t :: ts) :=
      previewBytes_records (List.cons_ne_nil t ts) rfl h.records hcovers
    obtain ⟨fuel', e', hrun', hoffs, -, hheads⟩ := hrecords
    cases previewBytes_unique hrun hrun'
    exact ⟨hoffs, h.records.congr hheads, h.covers⟩

theorem bmod_int_iff (k : Nat) : (k : Int).bmod (2 ^ 32) = k ↔ k < 2 ^ 31 := by
  constructor
  · intro h
    have hlt : (k : Int).bmod (2 ^ 32) < ((2 ^ 32 : Nat) + 1) / 2 := Int.bmod_lt (by decide)
    omega
  · intro h
    exact Int.bmod_eq_of_le (by omega) (by omega)

/-- What `resfile_get_fc` does on a well-formed file. -/
theorem resfileGetFc_wellFormed {isSamePath : List UInt8 → List UInt8 → Bool} {f : RawFile}
    {totals : List Nat} (h : WellFormed f totals) :
    FcRight isSamePath f totals ↔
      ∀ target k, FirstMatch isSamePath f totals target k → k < 2 ^ 31 := by
  have hfound : ∀ buf target k, FirstMatch isSamePath f totals target k →
      ∃ buf', resfileGetFc isSamePath f buf target =
          some (some ((k : Int).bmod (2 ^ 32), buf')) ∧
        readRange buf' 0 (totals.getD k 0) =
          readRange f.byte (startOf totals k) (totals.getD k 0) := by
    intro buf target k hk
    have hloop := getFcLoop_found buf 0 h.records (by rw [h.covers]; omega) hk.lt
      (by rw [Nat.zero_add]; exact hk.here) fun j hj => by rw [Nat.zero_add]; exact hk.first j hj
    have hget : totals.getD k 0 = totals.get ⟨k, hk.lt⟩ := by simp [List.getD, hk.lt]
    rw [hget]
    rwa [Int.zero_add, Nat.zero_add] at hloop
  constructor
  · intro hright target k hk
    obtain ⟨buf', hget, -⟩ := (hright (fun _ => 0) target).1 k hk
    obtain ⟨buf'', hget', -⟩ := hfound (fun _ => 0) target k hk
    rw [hget, Option.some.injEq, Option.some.injEq, Prod.mk.injEq] at hget'
    exact (bmod_int_iff k).mp hget'.1.symm
  · intro hfew buf target
    refine ⟨fun k hk => ?_, fun hno => ?_⟩
    · obtain ⟨buf', hget, hbytes⟩ := hfound buf target k hk
      rw [(bmod_int_iff k).mpr (hfew target k hk)] at hget
      exact ⟨buf', hget, hbytes⟩
    · refine getFcLoop_missing buf 0 h.records (by rw [h.covers]; exact Nat.zero_add _) ?_
      intro k
      induction k using Nat.strong_induction_on with
      | _ k ih =>
        intro hk
        by_contra hmatch
        rw [Bool.not_eq_false, Nat.zero_add] at hmatch
        exact hno ⟨k, hk, hmatch, fun j hj => by
          have hj' := ih j hj (by omega)
          rwa [Nat.zero_add] at hj'⟩

/-- Each record that the preview comes to has its header in the file, a table that can be accessed,
    and a `total_size`. -/
def RecordsSound (rf addrBase : Nat) (f : RawFile) : Prop :=
  ∀ s, Leads (nextTurn rf f.size) (RawPreview.start f addrBase) s →
    s.fileOffs % Srcinv.PAGE_SIZE = 0 →
    RecordThere f.size s ∧ totalSizeAt s.byte s.fileOffs ≠ 0

/-- The same, but for a record without a `total_size` whose table lies over its own header. -/
def RecordsSoundOrOver (rf addrBase : Nat) (f : RawFile) : Prop :=
  ∀ s, Leads (nextTurn rf f.size) (RawPreview.start f addrBase) s →
    s.fileOffs % Srcinv.PAGE_SIZE = 0 →
    RecordThere f.size s ∧ (totalSizeAt s.byte s.fileOffs ≠ 0 ∨ TableOver s)

/-- **The three readers**: they are right on a file whose records are sound, and only on such a
    file, but for a table that overwrites the header of its record. -/
theorem readers_exact (isSamePath : List UInt8 → List UInt8 → Bool) (rf addrBase : Nat)
    (f : RawFile) :
    (RecordsSound rf addrBase f ∧ FewRecords isSamePath f →
      ReadersRight isSamePath rf addrBase f) ∧
    (ReadersRight isSamePath rf addrBase f →
      RecordsSoundOrOver rf addrBase f ∧ FewRecords isSamePath f) := by
  constructor
  · rintro ⟨hsound, hfew⟩
    refine ⟨previewBytes_returns _ (Nat.le_refl _) hsound (fun _ hb => (by cases hb)), ?_, ?_⟩
    · intro totals h fuel ok e hrun
      obtain ⟨hoffs, hafter⟩ := preview_wellFormed h hrun
      refine ⟨?_, offsetsRight_of_wellFormed h hoffs, offsetsRight_of_wellFormed hafter hoffs⟩
      simpa [recordOffsets] using congrArg List.length hoffs
    · exact fun totals h => (resfileGetFc_wellFormed h).mpr (hfew totals h)
  · intro hright
    exact ⟨fun s hs hal => previewBytes_needs hright.returns hs hal,
      fun totals h => (resfileGetFc_wellFormed h).mp (hright.fc totals h)⟩

/-! ## Files -/

/-- A record takes a page at least. -/
theorem length_le_of_recordsAt {byte : Nat → UInt8} : ∀ {totals : List Nat} {o : Nat},
    RecordsAt byte o totals → totals.length * Srcinv.PAGE_SIZE ≤ totals.sum
  | [], _, _ => Nat.zero_le _
  | t :: ts, _, h => by
    have hrest := length_le_of_recordsAt h.2
    have hfits := h.1.fits
    have hpage : Srcinv.PAGE_SIZE ≤ t :=
      Nat.le_of_dvd (by omega) (Nat.dvd_of_mod_eq_zero h.1.aligned)
    rw [List.length_cons, List.sum_cons, Nat.succ_mul]
    omega

/-- Up to 8 TiB there are few records. -/
theorem fewRecords_of_size {isSamePath : List UInt8 → List UInt8 → Bool} {f : RawFile}
    (h : f.size ≤ 2 ^ 31 * Srcinv.PAGE_SIZE) : FewRecords isSamePath f := by
  intro totals hf target k hk
  have hlen := length_le_of_recordsAt hf.records
  rw [hf.covers] at hlen
  exact Nat.lt_of_lt_of_le hk.lt (Nat.le_of_mul_le_mul_right (hlen.trans h) (by decide))

/-- **A well-formed file** with a record is sound. -/
theorem recordsSound_of_wellFormed {rf addrBase : Nat} {f : RawFile} {totals : List Nat}
    (h : WellFormed f totals) (hne : totals ≠ []) : RecordsSound rf addrBase f := by
  -- what is left of the file is well-formed, and not empty
  have hinv : ∀ s, Leads (nextTurn rf f.size) (RawPreview.start f addrBase) s →
      s.fileOffs % Srcinv.PAGE_SIZE = 0 ∧ ∃ t ts, RecordsAt s.byte s.fileOffs (t :: ts) ∧
        s.fileOffs + (t :: ts).sum = f.size := by
    intro s hs
    induction hs with
    | refl =>
      obtain ⟨t, ts, rfl⟩ := List.exists_cons_of_ne_nil hne
      exact ⟨rfl, t, ts, h.records, (Nat.zero_add _).trans h.covers⟩
    | @tail s s' _ hstep ih =>
      obtain ⟨hal, t, ts, hrec, hsum⟩ := ih
      rw [List.sum_cons] at hsum
      obtain ⟨s'', hturn, hoffs, -, hsame⟩ :=
        previewTurn_record hrec.1 hal (show s.fileOffs + t ≤ f.size by omega)
      have hagain := nextTurn_eq_some.mp hstep
      rw [hturn, endTurn] at hagain
      split at hagain
      · cases hagain
      · split at hagain
        · cases hagain
        · cases hagain
          have hrest : RecordsAt s'.byte (s.fileOffs + t) ts :=
            hrec.2.congr (sameHeads_of_behind fun p hp => hsame p (Or.inr hp))
          cases ts with
          | nil =>
            simp only [List.sum_nil] at hsum
            omega
          | cons t' ts' =>
            rw [hoffs]
            exact ⟨by rw [Nat.add_mod, hal, hrec.1.aligned]; rfl, t', ts', hrest, by omega⟩
  intro s hs _
  obtain ⟨-, t, ts, hrec, hsum⟩ := hinv s hs
  rw [List.sum_cons] at hsum
  have hfits := hrec.1.fits
  refine ⟨hrec.1.there (by omega), ?_⟩
  rw [hrec.1.total]
  omega

/-- A page that begins with these bytes. -/
def pageFile (bytes : List UInt8) : RawFile := ⟨Srcinv.PAGE_SIZE, fun p => bytes.getD p 0⟩

/-- Pages that begin with these bytes. -/
def pagesFile (pages : List (List UInt8)) : RawFile :=
  ⟨pages.length * Srcinv.PAGE_SIZE, fun p =>
    (pages.getD (p / Srcinv.PAGE_SIZE) []).getD (p % Srcinv.PAGE_SIZE) 0⟩

/-- The record of `a` with the command `c`: `total_size` 4096, `objs_offs` 64, `objs_cnt` 2.  The
    payload begins at 28, its objects have 16 and 8 bytes. -/
def recordOfA : List UInt8 :=
  [0, 16, 0, 0, 64, 0, 0, 0, 2, 0, 0, 0, 8, 3, 2, 0, 2, 0, 0, 0, 0, 0, 97, 0, 99, 0] ++
    List.replicate 38 1 ++
    [1, 2, 0, 0, 0, 0, 0, 0, 0, 0, 0, 0, 0, 0, 0, 0, 16, 0, 0, 0] ++ List.replicate 12 0 ++
    [1, 3, 0, 0, 0, 0, 0, 0, 0, 0, 0, 0, 0, 0, 0, 0, 8, 0, 0, 0]

/-- The record of `b`, with one object. -/
def recordOfB : List UInt8 :=
  [0, 16, 0, 0, 64, 0, 0, 0, 1, 0, 0, 0, 8, 3, 2, 0, 2, 0, 0, 0, 0, 0, 98, 0, 99, 0] ++
    List.replicate 38 2 ++ [1, 4, 0, 0, 0, 0, 0, 0, 0, 0, 0, 0, 0, 0, 0, 0, 24, 0, 0, 0]

def twoRecords : RawFile := pagesFile [recordOfA, recordOfB]

theorem twoRecords_wellFormed : WellFormed twoRecords [Srcinv.PAGE_SIZE, Srcinv.PAGE_SIZE] where
  records := ⟨⟨by decide, by decide, by decide, by decide, by decide, by decide⟩,
    ⟨by decide, by decide, by decide, by decide, by decide, by decide⟩, trivial⟩
  covers := rfl

/-- The readers are right on a file of two records with objects. -/
theorem readers_exact_two : ReadersRight (· == ·) 0 RESFILE_BUF_START twoRecords :=
  (readers_exact (· == ·) 0 RESFILE_BUF_START twoRecords).1
    ⟨recordsSound_of_wellFormed twoRecords_wellFormed (by simp), fewRecords_of_size (by decide)⟩

/-- **A page of zeros**: its record has no `total_size`, and the preview stays there. -/
theorem zero_page_loops : (∀ fuel ok e, previewBytes 0 (pageFile []).size fuel
      (RawPreview.start (pageFile []) RESFILE_BUF_START) ≠ some (.ret ok e)) ∧
    ¬ ReadersRight (· == ·) 0 RESFILE_BUF_START (pageFile []) := by
  have hloop : ∀ fuel ok e, previewBytes 0 (pageFile []).size fuel
      (RawPreview.start (pageFile []) RESFILE_BUF_START) ≠ some (.ret ok e) :=
    fun fuel ok e => previewBytes_stuck rfl (by decide) (by decide) (by decide)
  refine ⟨hloop, fun hright => ?_⟩
  obtain ⟨fuel, ok, e, hrun, -⟩ := hright.returns
  exact hloop fuel ok e hrun

end Srcinv.Analysis.ResfileBytes
