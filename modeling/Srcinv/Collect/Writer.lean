import Mathlib.Data.List.Basic
import Srcinv.Record
import Srcinv.Lib.Run

/-!
# The record writer of the gcc collector (`collect/gcc/c.cc`)

The collector keeps the record it builds in the static buffer `nodes_mem`: `getCompilingArgs`
fills in the header, the path and the command line, each write appends the bytes of one object
and one entry of `objs`, and `nodesFlush` puts the table behind the payload and closes the
header.  `none` stands for `BUG()`, for an error return and for an access outside a buffer.

* `Holds` — the invariant of the writer: the payload is the concatenation of the bytes copied so
  far, and the table has their sizes.
* `holds_exec` — it holds after any list of writes.
* `nodesFlush_wellFormed` — what is flushed is a well-formed record with no address in it.
-/

namespace Srcinv.Collect

open Srcinv.Lib

/-! ## Header, path and command line -/

/-- What `get_compiling_args` reads from the compiler process.  Strings come without their
    terminator. -/
structure CompileEnv where
  isKernel : Bool
  gccVer : Nat
  gccVerMinor : Nat
  getcwd : Option (List UInt8)
  mainInputFilename : List UInt8
  collectGccOptions : Option (List UInt8)

/-- The static buffers of the collector. -/
structure Collector where
  hdr : FileContent
  nodesMem : Nat → UInt8
  memPtrStart : Nat
  memPtr : Nat
  objs : List FileObj
  xlocAddr : Nat

def SLASH : UInt8 := 47
def QUOTE : UInt8 := 39
def BLANK : UInt8 := 32

/-- The bytes of `-fplugin`. -/
def FPLUGIN : List UInt8 := [45, 102, 112, 108, 117, 103, 105, 110]

/-- `strchr`: what stands before the first `c` and what stands after it. -/
def strchr (c : UInt8) : List UInt8 → Option (List UInt8 × List UInt8)
  | [] => none
  | x :: xs =>
    if x = c then some ([], xs)
    else (strchr c xs).map fun p => (x :: p.1, p.2)

theorem strchr_length {c : UInt8} {p : List UInt8 × List UInt8} :
    ∀ {s : List UInt8}, strchr c s = some p → p.2.length < s.length
  | x :: xs, h => by
    unfold strchr at h
    split at h
    · cases h
      simp
    · obtain ⟨q, hq, rfl⟩ := Option.map_eq_some_iff.mp h
      have := strchr_length hq
      simp only [List.length_cons]
      omega

/-- The state of the copy loop over the arguments: `cmd`, `cmd_len` and the buffer. -/
structure ArgCopy where
  cmd : Nat
  cmdLen : Nat
  nodesMem : Nat → UInt8

/-- Append one quoted argument and a blank.  `cmd_len` is a `uint16_t`. -/
def ArgCopy.push (st : ArgCopy) (arg : List UInt8) : ArgCopy where
  cmd := st.cmd + (arg.length + 1)
  cmdLen := (st.cmdLen + (arg.length + 1)) % 2 ^ 16
  nodesMem := blit (blit st.nodesMem st.cmd arg) (st.cmd + arg.length) [BLANK]

/-- The loop over `COLLECT_GCC_OPTIONS`, which drops the `-fplugin` arguments. -/
def copyArgs (st : ArgCopy) (cur : List UInt8) : Option ArgCopy :=
  match hq : strchr QUOTE cur with
  | none => some st
  | some (_, arg) =>
    match he : strchr QUOTE arg with
    -- an unbalanced quote: `end` is NULL and the next access is outside the string
    | none => none
    | some (body, rest) =>
      have : rest.length < cur.length :=
        Nat.lt_trans (strchr_length he) (strchr_length hq)
      if FPLUGIN.isPrefixOf arg then copyArgs st rest
      else copyArgs (st.push (QUOTE :: body ++ [QUOTE])) rest
termination_by cur.length

/-- `get_compiling_args`, on the zeroed `nodes_mem`. -/
def getCompilingArgs (env : CompileEnv) : Option Collector :=
  match env.getcwd with
  | none => none
  | some cwd =>
    if cwd.length + env.mainInputFilename.length + 1 ≥ PATH_MAX then none
    else
      let dir := if cwd.getLast? ≠ some SLASH then cwd ++ [SLASH] else cwd
      let path := dir ++ env.mainInputFilename
      let hdr : FileContent :=
        { totalSize := 0
          objsOffs := 0
          objsCnt := 0
          gccVerMajor := env.gccVer % 2 ^ 8
          gccVerMinor := env.gccVerMinor % 2 ^ 8
          pathLen := path.length + 1
          cmdLen := 0
          srcrootLen := dir.length
          type :=
            { binary := SI_TYPE_SRC
              kernel := if env.isKernel then SI_TYPE_KERN else SI_TYPE_USER
              osType := SI_TYPE_OS_LINUX
              dataFmt := SI_TYPE_DF_GIMPLE } }
      let mem := blit (fun _ => 0) PATH_OFFS (path ++ [0])
      let done := fun (hdr : FileContent) (mem : Nat → UInt8) =>
        some ⟨hdr, mem, fcPldptr hdr, fcPldptr hdr, [], 2 ^ 64 - 1⟩
      match env.collectGccOptions with
      | none => done hdr mem
      | some ptr =>
        match copyArgs ⟨fcCmdptr hdr, 0, mem⟩ ptr with
        | none => none
        | some st => done { hdr with cmdLen := (st.cmdLen + 1) % 2 ^ 16 } st.nodesMem

/-! ## Writing objects -/

/-- `insert_obj`. -/
def insertObj (c : Collector) (obj size : Nat) : Option Collector :=
  if c.objs.length < MAX_OBJS_PER_FILE then
    some { c with
      objs := c.objs ++ [{ FileObj.zero with fakeAddr := obj % 2 ^ 48, size := size % 2 ^ 32 }] }
  else none

/-- The `memcpy` to `mem_ptr` and the check of the buffer. -/
def copyOut (c : Collector) (src : List UInt8) : Option Collector :=
  if c.memPtr + src.length > MAX_SIZE_PER_FILE then none
  else some { c with
    nodesMem := blit c.nodesMem c.memPtr src
    memPtr := c.memPtr + src.length }

/-- `mem_write` of the bytes at `addr`. -/
def memWrite (c : Collector) (addr : Nat) (src : List UInt8) : Option Collector :=
  if addr = 0 then some c
  else (insertObj c addr src.length).bind fun c => copyOut c src

/-- `mem_write_loc`: the entry gets an address of its own, counted down from the top. -/
def memWriteLoc (c : Collector) (src : List UInt8) : Option Collector :=
  (insertObj c c.xlocAddr src.length).bind fun c =>
    copyOut { c with xlocAddr := c.xlocAddr - 1 } src

/-- `mem_write_last_char`. -/
def memWriteLastChar (c : Collector) (ch : UInt8) : Collector :=
  { c with nodesMem := blit c.nodesMem (c.memPtr - 1) [ch] }

/-- `mem_write_path`: the string behind `addr` is replaced by its `realpath`. -/
def memWritePath (c : Collector) (addr : Nat) (realpath : Option (List UInt8)) :
    Option Collector :=
  match realpath with
  | none => none
  | some path =>
    (insertObj c addr (path.length + 1)).bind fun c => copyOut c (path ++ [0])

/-- The writing part of `do_cpp_token`: one byte more than the token, then the kind of its
    value over that byte.  `following` is the byte that happens to follow the token. -/
def cppToken (c : Collector) (node : Nat) (src : List UInt8) (following kind : UInt8) :
    Option Collector :=
  if node = 0 then some c
  else (memWrite c node (src ++ [following])).map fun c => memWriteLastChar c kind

/-- The first branch of `do_global_tree`: an entry without bytes for an object that is already
    there, or for NULL. -/
def globalSeen (c : Collector) (obj idx : Nat) : Option Collector :=
  if c.objs.length < MAX_OBJS_PER_FILE then
    some { c with
      objs := c.objs ++
        [{ FileObj.zero with fakeAddr := obj % 2 ^ 48, gccGlobalVaridx := idx % 2 ^ 16 }] }
  else none

/-- The second branch of `do_global_tree` tags the entry that it was about to write. -/
def tagGlobal (c : Collector) (curIdx idx : Nat) : Option Collector :=
  if curIdx < c.objs.length then
    some { c with
      objs := c.objs.modify curIdx fun o => { o with gccGlobalVaridx := idx % 2 ^ 16 } }
  else none

/-- What the walk over the GCC objects asks the writer to do. -/
inductive WriteOp where
  | write (addr : Nat) (src : List UInt8)
  | loc (src : List UInt8)
  | path (addr : Nat) (realpath : Option (List UInt8))
  | token (node : Nat) (src : List UInt8) (following kind : UInt8)
  | seen (obj idx : Nat)
  | tag (curIdx idx : Nat)

def writeStep (c : Collector) : WriteOp → Option Collector
  | .write addr src => memWrite c addr src
  | .loc src => memWriteLoc c src
  | .path addr realpath => memWritePath c addr realpath
  | .token node src following kind => cppToken c node src following kind
  | .seen obj idx => globalSeen c obj idx
  | .tag curIdx idx => tagGlobal c curIdx idx

/-- The bytes that each new table entry stands for. -/
def WriteOp.copied : WriteOp → List (List UInt8)
  | .write addr src => if addr = 0 then [] else [src]
  | .loc src => [src]
  | .path _ realpath => [realpath.getD [] ++ [0]]
  | .token node src _ kind => if node = 0 then [] else [src ++ [kind]]
  | .seen _ _ => [[]]
  | .tag _ _ => []

/-- The bytes the collector copied, object by object. -/
def copied (ops : List WriteOp) : List (List UInt8) := ops.flatMap WriteOp.copied

/-- `nodes_flush`.  `none` is a `BUG()`, `some none` a collection that wrote nothing. -/
def nodesFlush (R : Rounding) (c : Collector) : Option (Option Record) :=
  if c.memPtr = c.memPtrStart then some none
  else
    let i := min (c.objs.findIdx fun o => o.fakeAddr = 0 ∧ o.gccGlobalVaridx = 0) MAX_OBJS_PER_FILE
    if i ≠ c.objs.length then none
    else
      let total := R.up ((c.memPtr + i * SIZEOF_FILE_OBJ) % 2 ^ 32) % 2 ^ 32
      if total < c.memPtr ∨ total > MAX_SIZE_PER_FILE then none
      else some (some
        { hdr := { c.hdr with objsOffs := c.memPtr, objsCnt := i, totalSize := total }
          bytes := c.nodesMem
          objs := c.objs })

/-! ## The invariant of the writer -/

/-- The writer holds the objects `parts`, in this order. -/
structure Holds (hdr : FileContent) (parts : List (List UInt8)) (c : Collector) : Prop where
  header : c.hdr = hdr
  start : c.memPtrStart = fcPldptr hdr
  ptr : c.memPtr = c.memPtrStart + parts.flatten.length
  payload : readRange c.nodesMem c.memPtrStart parts.flatten.length = parts.flatten
  sizes : c.objs.map FileObj.size = parts.map List.length
  fresh : ∀ o ∈ c.objs, o.realAddr = 0
  room : c.memPtr ≤ MAX_SIZE_PER_FILE

theorem getCompilingArgs_start {env : CompileEnv} {c : Collector}
    (h : getCompilingArgs env = some c) :
    c.memPtrStart = fcPldptr c.hdr ∧ c.memPtr = c.memPtrStart ∧ c.objs = [] ∧
      c.hdr.pathLen ≤ PATH_MAX ∧ c.hdr.cmdLen < 2 ^ 16 := by
  unfold getCompilingArgs at h
  cases hcwd : env.getcwd with
  | none => simp [hcwd] at h
  | some cwd =>
    simp only [hcwd] at h
    split at h
    · cases h
    · rename_i hlen
      have hdir : (if cwd.getLast? ≠ some SLASH then cwd ++ [SLASH] else cwd).length
          ≤ cwd.length + 1 := by
        split <;> simp
      cases hopt : env.collectGccOptions with
      | none =>
        simp only [hopt, Option.some.injEq] at h
        subst h
        refine ⟨rfl, rfl, rfl, ?_, Nat.two_pow_pos 16⟩
        simp only [List.length_append]
        omega
      | some ptr =>
        simp only [hopt] at h
        split at h
        · cases h
        · simp only [Option.some.injEq] at h
          subst h
          refine ⟨rfl, rfl, rfl, ?_, Nat.mod_lt _ (by decide)⟩
          simp only [List.length_append]
          omega

/-- Before the first object the writer holds nothing. -/
theorem holds_start {env : CompileEnv} {c : Collector} (h : getCompilingArgs env = some c) :
    Holds c.hdr [] c := by
  obtain ⟨hstart, hptr, hobjs, hpath, hcmd⟩ := getCompilingArgs_start h
  refine ⟨rfl, hstart, by simp [hptr], rfl, by simp [hobjs], by simp [hobjs], ?_⟩
  rw [hptr, hstart]
  simp only [fcPldptr, SIZEOF_FILE_CONTENT, PATH_MAX, MAX_SIZE_PER_FILE] at hpath ⊢
  omega

theorem insertObj_eq {c c' : Collector} {obj size : Nat} (h : insertObj c obj size = some c') :
    c' = { c with
      objs := c.objs ++
        [{ FileObj.zero with fakeAddr := obj % 2 ^ 48, size := size % 2 ^ 32 }] } := by
  unfold insertObj at h
  split at h
  · exact (Option.some.inj h).symm
  · cases h

/-- **Appending one object**: a new entry whose size is the number of bytes appended. -/
theorem holds_append {hdr : FileContent} {parts : List (List UInt8)} {c c' c'' : Collector}
    {obj : Nat} (src : List UInt8) (xloc : Nat) (hc : Holds hdr parts c)
    (hins : insertObj c obj src.length = some c')
    (hcopy : copyOut { c' with xlocAddr := xloc } src = some c'') :
    Holds hdr (parts ++ [src]) c'' := by
  have hc' := insertObj_eq hins
  subst hc'
  unfold copyOut at hcopy
  split at hcopy
  · cases hcopy
  · rename_i hroom
    simp only [gt_iff_lt, Nat.not_lt] at hroom
    cases hcopy
    have hsize : src.length < 2 ^ 32 := by
      simp only [MAX_SIZE_PER_FILE] at hroom
      omega
    refine ⟨hc.header, hc.start, ?_, ?_, ?_, ?_, hroom⟩
    · simp [hc.ptr, Nat.add_assoc]
    · simp only [List.flatten_append, List.flatten_singleton, hc.ptr]
      exact readRange_blit_end hc.payload src
    · simp only [List.map_append, List.map_cons, List.map_nil, hc.sizes, Nat.mod_eq_of_lt hsize]
    · intro o ho
      rcases List.mem_append.mp ho with ho | ho
      · exact hc.fresh o ho
      · rw [List.mem_singleton.mp ho]
        rfl

/-- Overwriting the last byte changes the last object only. -/
theorem holds_lastChar {hdr : FileContent} {parts : List (List UInt8)} {c : Collector}
    {src : List UInt8} {following kind : UInt8} (hc : Holds hdr (parts ++ [src ++ [following]]) c) :
    Holds hdr (parts ++ [src ++ [kind]]) (memWriteLastChar c kind) := by
  have hflat : ∀ ch : UInt8, (parts ++ [src ++ [ch]]).flatten = (parts.flatten ++ src) ++ [ch] := by
    simp
  have hptr := hc.ptr
  have hpay := hc.payload
  rw [hflat] at hptr hpay
  have hlast : c.memPtr - 1 = c.memPtrStart + (parts.flatten ++ src).length := by
    rw [hptr]
    simp only [List.length_append, List.length_singleton]
    omega
  have hprefix : readRange c.nodesMem c.memPtrStart (parts.flatten ++ src).length =
      parts.flatten ++ src := by
    rw [List.length_append, List.length_singleton, readRange_add] at hpay
    exact (List.append_inj hpay (readRange_length _ _ _)).1
  refine ⟨hc.header, hc.start, ?_, ?_, ?_, hc.fresh, hc.room⟩
  · show c.memPtr = c.memPtrStart + _
    rw [hflat, hptr]
    simp
  · show readRange (blit c.nodesMem (c.memPtr - 1) [kind]) c.memPtrStart _ = _
    rw [hlast, hflat]
    exact readRange_blit_end hprefix [kind]
  · show c.objs.map FileObj.size = _
    rw [hc.sizes]
    simp

/-- An entry without bytes. -/
theorem holds_seen {hdr : FileContent} {parts : List (List UInt8)} {c c' : Collector}
    {obj idx : Nat} (hc : Holds hdr parts c) (h : globalSeen c obj idx = some c') :
    Holds hdr (parts ++ [[]]) c' := by
  unfold globalSeen at h
  split at h
  · cases h
    refine ⟨hc.header, hc.start, ?_, ?_, ?_, ?_, hc.room⟩
    · simpa using hc.ptr
    · simpa using hc.payload
    · simp [hc.sizes, FileObj.zero]
    · intro o ho
      rcases List.mem_append.mp ho with ho | ho
      · exact hc.fresh o ho
      · rw [List.mem_singleton.mp ho]
        rfl
  · cases h

theorem map_modify_of_eq {α β : Type*} (f : α → β) {g : α → α} (hg : ∀ a, f (g a) = f a) :
    ∀ (l : List α) (i : Nat), (l.modify i g).map f = l.map f
  | [], i => by cases i <;> rfl
  | a :: l, 0 => by simp [hg]
  | a :: l, i + 1 => by simp [map_modify_of_eq f hg l i]

/-- Tagging an entry changes neither sizes nor addresses. -/
theorem holds_tag {hdr : FileContent} {parts : List (List UInt8)} {c c' : Collector}
    {curIdx idx : Nat} (hc : Holds hdr parts c) (h : tagGlobal c curIdx idx = some c') :
    Holds hdr parts c' := by
  unfold tagGlobal at h
  split at h
  · cases h
    refine ⟨hc.header, hc.start, hc.ptr, hc.payload, ?_, ?_, hc.room⟩
    · rw [← hc.sizes]
      exact map_modify_of_eq FileObj.size
        (g := fun o => { o with gccGlobalVaridx := idx % 2 ^ 16 }) (fun _ => rfl) c.objs curIdx
    · intro o ho
      have hmap := map_modify_of_eq FileObj.realAddr
        (g := fun o => { o with gccGlobalVaridx := idx % 2 ^ 16 }) (fun _ => rfl) c.objs curIdx
      have hmem := List.mem_map_of_mem (f := FileObj.realAddr) ho
      rw [hmap] at hmem
      obtain ⟨o', ho', heq⟩ := List.mem_map.mp hmem
      rw [← heq]
      exact hc.fresh o' ho'
  · cases h

/-- One write adds the bytes of its objects. -/
theorem holds_step {hdr : FileContent} {parts : List (List UInt8)} {c c' : Collector}
    {op : WriteOp} (hc : Holds hdr parts c) (h : writeStep c op = some c') :
    Holds hdr (parts ++ op.copied) c' := by
  cases op with
  | write addr src =>
    simp only [writeStep, memWrite] at h
    by_cases ha : addr = 0
    · simp only [ha, if_true, Option.some.injEq] at h
      subst h
      simpa [WriteOp.copied, ha] using hc
    · rw [if_neg ha] at h
      obtain ⟨c1, hins, hcopy⟩ := Option.bind_eq_some_iff.mp h
      simp only [WriteOp.copied, if_neg ha]
      exact holds_append src c1.xlocAddr hc hins hcopy
  | loc src =>
    simp only [writeStep, memWriteLoc] at h
    obtain ⟨c1, hins, hcopy⟩ := Option.bind_eq_some_iff.mp h
    exact holds_append src _ hc hins hcopy
  | path addr realpath =>
    cases realpath with
    | none => simp [writeStep, memWritePath] at h
    | some path =>
      simp only [writeStep, memWritePath] at h
      obtain ⟨c1, hins, hcopy⟩ := Option.bind_eq_some_iff.mp h
      have hins' : insertObj c addr (path ++ [0]).length = some c1 := by simpa using hins
      exact holds_append (path ++ [0]) c1.xlocAddr hc hins' hcopy
  | token node src following kind =>
    simp only [writeStep, cppToken] at h
    by_cases hn : node = 0
    · simp only [hn, if_true, Option.some.injEq] at h
      subst h
      simpa [WriteOp.copied, hn] using hc
    · rw [if_neg hn] at h
      obtain ⟨c1, hw, rfl⟩ := Option.map_eq_some_iff.mp h
      rw [memWrite, if_neg hn] at hw
      obtain ⟨c2, hins, hcopy⟩ := Option.bind_eq_some_iff.mp hw
      simp only [WriteOp.copied, if_neg hn]
      exact holds_lastChar (holds_append (src ++ [following]) c2.xlocAddr hc hins hcopy)
  | seen obj idx => exact holds_seen hc h
  | tag curIdx idx =>
    simpa [WriteOp.copied] using holds_tag hc h

/-- **The writer holds what was copied**, after any list of writes. -/
theorem holds_exec {hdr : FileContent} : ∀ {ops : List WriteOp} {parts : List (List UInt8)}
    {c c' : Collector}, Holds hdr parts c → exec writeStep c ops = some c' →
      Holds hdr (parts ++ copied ops) c'
  | [], parts, c, c', hc, h => by
    cases h
    simpa [copied] using hc
  | op :: ops, parts, c, c', hc, h => by
    cases hs : writeStep c op with
    | none => simp [exec, hs] at h
    | some c1 =>
      rw [exec_cons_of_step hs] at h
      have hrest := holds_exec (holds_step hc hs) h
      simpa [copied, List.append_assoc] using hrest

/-! ## The flushed record -/

/-- What `nodes_flush` writes, when it writes. -/
theorem nodesFlush_eq {R : Rounding} {c : Collector} {r : Record}
    (h : nodesFlush R c = some (some r)) :
    r.bytes = c.nodesMem ∧ r.objs = c.objs ∧ r.hdr.objsOffs = c.memPtr ∧
      r.hdr.objsCnt = c.objs.length ∧ fcPldptr r.hdr = fcPldptr c.hdr ∧
      r.hdr.totalSize = R.up ((c.memPtr + c.objs.length * SIZEOF_FILE_OBJ) % 2 ^ 32) % 2 ^ 32 ∧
      c.objs.length ≤ MAX_OBJS_PER_FILE ∧ c.memPtr ≠ c.memPtrStart ∧
      r.hdr.totalSize ≤ MAX_SIZE_PER_FILE := by
  unfold nodesFlush at h
  split at h
  · cases h
  · rename_i hne
    dsimp only at h
    split at h
    · cases h
    · rename_i hi
      have hcnt : min (c.objs.findIdx fun o => o.fakeAddr = 0 ∧ o.gccGlobalVaridx = 0)
          MAX_OBJS_PER_FILE = c.objs.length := Decidable.not_not.mp hi
      rw [hcnt] at h
      split at h
      · cases h
      · rename_i htotal
        cases h
        rw [not_or] at htotal
        refine ⟨rfl, rfl, rfl, rfl, rfl, rfl, ?_, hne, Nat.le_of_not_gt htotal.2⟩
        rw [← hcnt]
        exact Nat.min_le_right _ _

/-- **A flushed record is well-formed** and none of its objects has an address yet. -/
theorem nodesFlush_wellFormed {R : Rounding} {hdr : FileContent} {parts : List (List UInt8)}
    {c : Collector} {r : Record} (hc : Holds hdr parts c)
    (h : nodesFlush R c = some (some r)) : r.WellFormed ∧ ∀ o ∈ r.objs, o.realAddr = 0 := by
  obtain ⟨_, hobjs, hoffs, hcnt, hpld, htotal, hlen, hne, hmax⟩ := nodesFlush_eq h
  have hsum : r.sizes.sum = parts.flatten.length := by
    rw [Record.sizes, hobjs, hc.sizes, List.length_flatten]
  have hroom := hc.room
  have hptr := hc.ptr
  -- nothing wraps: the payload and the table are far below 4 GiB
  have hmod : (c.memPtr + c.objs.length * SIZEOF_FILE_OBJ) % 2 ^ 32 =
      c.memPtr + c.objs.length * SIZEOF_FILE_OBJ := by
    refine Nat.mod_eq_of_lt ?_
    simp only [MAX_SIZE_PER_FILE, MAX_OBJS_PER_FILE, SIZEOF_FILE_OBJ] at *
    omega
  have hup := R.le_up (c.memPtr + c.objs.length * SIZEOF_FILE_OBJ)
  have hlt := R.up_lt (c.memPtr + c.objs.length * SIZEOF_FILE_OBJ)
  have htot : r.hdr.totalSize = R.up (c.memPtr + c.objs.length * SIZEOF_FILE_OBJ) := by
    rw [htotal, hmod]
    refine Nat.mod_eq_of_lt ?_
    simp only [MAX_SIZE_PER_FILE, MAX_OBJS_PER_FILE, SIZEOF_FILE_OBJ, PAGE_SIZE] at *
    omega
  have hfresh : ∀ o ∈ r.objs, o.realAddr = 0 := by
    rw [hobjs]
    exact hc.fresh
  refine ⟨⟨by rw [hobjs, hcnt], ?_, ?_, ?_, hmax, ?_⟩, hfresh⟩
  · rw [hpld, hoffs, hsum, hptr, hc.start, hc.header]
  · rw [hoffs, hobjs, htot]
    exact hup
  · rw [htot]
    omega
  · exact Or.inl hfresh

end Srcinv.Collect
