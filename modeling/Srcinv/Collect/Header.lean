import Srcinv.Collect.Writer

/-!
# The regions of a record's header (`collect/gcc/c.cc`, `si_helper.h`)

Behind the fixed fields of a `struct file_content` come the path, the command line and the
payload, each found by the lengths of those before it.  Both lengths have 16 bits.  The path is
shorter than `PATH_MAX`; the command line is as long as the compiler's options make it.

* `copyArgs_line` — on balanced quotes the loop copies the arguments that are not the plugin's,
  in order.
* `writeStep_frame` — later writes leave header, path and command line alone.
* `header_regions` — the regions are right if and only if the command line with its terminator
  is shorter than 64 KiB.
-/

namespace Srcinv.Collect

open Srcinv.Lib

/-! ## Command lines -/

/-- The bytes of a C string. -/
def Plain (s : List UInt8) : Prop := 0 ∉ s

instance (s : List UInt8) : Decidable (Plain s) := inferInstanceAs (Decidable (0 ∉ s))

/-- One argument as it stands in `COLLECT_GCC_OPTIONS`: what comes before its first quote, and
    what is between its quotes. -/
structure QuotedArg where
  gap : List UInt8
  body : List UInt8
  gap_plain : Plain gap
  gap_open : QUOTE ∉ gap
  body_plain : Plain body
  body_open : QUOTE ∉ body

/-- A command line of quoted arguments. -/
structure CommandLine where
  args : List QuotedArg
  tail : List UInt8
  tail_plain : Plain tail
  tail_open : QUOTE ∉ tail

/-- An argument between its quotes. -/
def quoted (body : List UInt8) : List UInt8 := QUOTE :: body ++ [QUOTE]

/-- The text of the environment variable. -/
def lineText (args : List QuotedArg) (tail : List UInt8) : List UInt8 :=
  args.flatMap (fun a => a.gap ++ quoted a.body) ++ tail

def CommandLine.text (line : CommandLine) : List UInt8 := lineText line.args line.tail

/-- The arguments that are not for a plugin. -/
def keptArgs (args : List QuotedArg) : List (List UInt8) :=
  (args.map QuotedArg.body).filter fun body => !FPLUGIN.isPrefixOf body

/-- The command region without its terminator: every argument in its quotes, then a blank. -/
def keptText (bodies : List (List UInt8)) : List UInt8 :=
  bodies.flatMap fun body => quoted body ++ [BLANK]

def CommandLine.kept (line : CommandLine) : List UInt8 := keptText (keptArgs line.args)

/-- The directory of the compiler with its final slash, then the file. -/
def sourcePath (cwd file : List UInt8) : List UInt8 :=
  (if cwd.getLast? ≠ some SLASH then cwd ++ [SLASH] else cwd) ++ file

/-- **The regions of a record**: fixed fields, path, command line and payload follow one another,
    the lengths are the real ones and the two strings are there with their terminators. -/
structure RegionsRight (path cmd : List UInt8) (hdr : FileContent) (mem : Nat → UInt8)
    (payload : Nat) : Prop where
  path_len : hdr.pathLen = (path ++ [0]).length
  path_text : readRange mem PATH_OFFS (path ++ [0]).length = path ++ [0]
  cmd_start : fcCmdptr hdr = PATH_OFFS + (path ++ [0]).length + 2
  cmd_len : hdr.cmdLen = (cmd ++ [0]).length
  cmd_text : readRange mem (fcCmdptr hdr) (cmd ++ [0]).length = cmd ++ [0]
  cmd_plain : Plain cmd
  payload_start : payload = fcCmdptr hdr + (cmd ++ [0]).length

/-! ## The copy loop -/

theorem strchr_append {c : UInt8} : ∀ {pre : List UInt8} (post : List UInt8), c ∉ pre →
    strchr c (pre ++ c :: post) = some (pre, post)
  | [], post, _ => by simp [strchr]
  | x :: pre, post, h => by
    have hx : x ≠ c := fun he => h (he ▸ List.mem_cons_self)
    have hpre : c ∉ pre := fun hm => h (List.mem_cons_of_mem x hm)
    rw [List.cons_append, strchr, if_neg hx, strchr_append post hpre]
    rfl

theorem strchr_none {c : UInt8} : ∀ {s : List UInt8}, c ∉ s → strchr c s = none
  | [], _ => rfl
  | x :: s, h => by
    have hx : x ≠ c := fun he => h (he ▸ List.mem_cons_self)
    have hs : c ∉ s := fun hm => h (List.mem_cons_of_mem x hm)
    rw [strchr, if_neg hx, strchr_none hs]
    rfl

/-- `strncmp` looks at the rest of the line; a quote cannot be part of what it looks for. -/
theorem prefix_body {c : UInt8} : ∀ {word body : List UInt8} (rest : List UInt8), c ∉ word →
    word.isPrefixOf (body ++ c :: rest) = word.isPrefixOf body
  | [], _, _, _ => by simp
  | w :: word, [], rest, h => by
    have hw : w ≠ c := fun he => h (he ▸ List.mem_cons_self)
    simp [List.isPrefixOf, hw]
  | w :: word, b :: body, rest, h => by
    have hword : c ∉ word := fun hm => h (List.mem_cons_of_mem w hm)
    simp only [List.cons_append, List.isPrefixOf, prefix_body rest hword]

/-- The pushes of the loop. -/
def ArgCopy.pushAll (st : ArgCopy) (bodies : List (List UInt8)) : ArgCopy :=
  bodies.foldl (fun st body => st.push (quoted body)) st

theorem keptArgs_cons (a : QuotedArg) (args : List QuotedArg) :
    keptArgs (a :: args) =
      if FPLUGIN.isPrefixOf a.body then keptArgs args else a.body :: keptArgs args := by
  cases h : FPLUGIN.isPrefixOf a.body <;> simp [keptArgs, h]

/-- **The copy loop** pushes the kept arguments in their order. -/
theorem copyArgs_line {tail : List UInt8} (htail : QUOTE ∉ tail) :
    ∀ (args : List QuotedArg) (st : ArgCopy),
      copyArgs st (lineText args tail) = some (st.pushAll (keptArgs args))
  | [], st => by
    have hnone : strchr QUOTE (lineText [] tail) = none := strchr_none htail
    unfold copyArgs
    split
    · rfl
    · rename_i hq
      rw [hnone] at hq
      cases hq
  | a :: args, st => by
    have hline : lineText (a :: args) tail =
        a.gap ++ QUOTE :: (a.body ++ QUOTE :: lineText args tail) := by
      simp [lineText, quoted]
    have hopen := strchr_append (a.body ++ QUOTE :: lineText args tail) a.gap_open
    have hclose := strchr_append (lineText args tail) a.body_open
    have hplugin : FPLUGIN.isPrefixOf (a.body ++ QUOTE :: lineText args tail) =
        FPLUGIN.isPrefixOf a.body := prefix_body _ (by decide)
    rw [hline, keptArgs_cons]
    unfold copyArgs
    split
    · rename_i hq
      rw [hopen] at hq
      cases hq
    · rename_i gap arg hq
      rw [hopen] at hq
      cases hq
      split
      · rename_i he
        rw [hclose] at he
        cases he
      · rename_i body rest he
        rw [hclose] at he
        cases he
        rw [hplugin]
        split
        · exact copyArgs_line htail args st
        · exact copyArgs_line htail args (st.push (quoted a.body))

/-- What the loop has copied: `held` stands from `start` on and `cmd` behind it, `cmd_len` is its
    length in 16 bits, and nothing else has changed. -/
structure Copied (mem : Nat → UInt8) (start : Nat) (held : List UInt8) (st : ArgCopy) : Prop where
  cmd : st.cmd = start + held.length
  cmd_len : st.cmdLen = held.length % 2 ^ 16
  text : readRange st.nodesMem start held.length = held
  before : ∀ k < start, st.nodesMem k = mem k
  behind : ∀ k, st.cmd ≤ k → st.nodesMem k = mem k

theorem blit_of_le {mem : Nat → UInt8} {dst k : Nat} {src : List UInt8}
    (h : dst + src.length ≤ k) : blit mem dst src k = mem k := by
  have hlen : src.length ≤ k - dst := by omega
  simp [blit, List.getElem?_eq_none hlen]

/-- One push. -/
theorem Copied.push {mem : Nat → UInt8} {start : Nat} {held : List UInt8} {st : ArgCopy}
    (h : Copied mem start held st) (arg : List UInt8) :
    Copied mem start (held ++ (arg ++ [BLANK])) (st.push arg) := by
  have hcmd := h.cmd
  refine ⟨?_, ?_, ?_, fun k hk => ?_, fun k hk => ?_⟩
  · simp only [ArgCopy.push, hcmd, List.length_append, List.length_singleton]
    omega
  · simp only [ArgCopy.push, h.cmd_len, List.length_append, List.length_singleton]
    omega
  · have harg := readRange_blit_end h.text arg
    have hblank := readRange_blit_end harg [BLANK]
    rw [List.append_assoc] at hblank
    have hend : start + held.length + arg.length = start + (held ++ arg).length := by
      simp only [List.length_append, Nat.add_assoc]
    show readRange (blit (blit st.nodesMem st.cmd arg) (st.cmd + arg.length) [BLANK]) start _ = _
    rw [hcmd, hend]
    exact hblank
  · simp only [ArgCopy.push]
    rw [blit_of_lt _ (by omega), blit_of_lt _ (by omega)]
    exact h.before k hk
  · simp only [ArgCopy.push] at hk ⊢
    rw [blit_of_le (by simpa using by omega), blit_of_le (by omega)]
    exact h.behind k (by omega)

/-- All pushes. -/
theorem Copied.pushAll {mem : Nat → UInt8} {start : Nat} :
    ∀ {bodies : List (List UInt8)} {held : List UInt8} {st : ArgCopy}, Copied mem start held st →
      Copied mem start (held ++ keptText bodies) (st.pushAll bodies)
  | [], held, st, h => by simpa [keptText, ArgCopy.pushAll] using h
  | body :: bodies, held, st, h => by
    have hrest : Copied mem start (held ++ (quoted body ++ [BLANK]) ++ keptText bodies)
        ((st.push (quoted body)).pushAll bodies) := (h.push (quoted body)).pushAll
    simpa [keptText, ArgCopy.pushAll, List.append_assoc] using hrest

theorem keptText_plain {bodies : List (List UInt8)} (h : ∀ body ∈ bodies, Plain body) :
    Plain (keptText bodies) := by
  intro hzero
  obtain ⟨body, hbody, hmem⟩ := List.mem_flatMap.mp hzero
  have hne : (0 : UInt8) ≠ QUOTE ∧ (0 : UInt8) ≠ BLANK := by decide
  simp only [quoted, List.cons_append, List.mem_cons, List.mem_append, List.not_mem_nil, or_false]
    at hmem
  rcases hmem with hq | (hb | hq) | hb
  · exact hne.1 hq
  · exact h body hbody hb
  · exact hne.1 hq
  · exact hne.2 hb

theorem CommandLine.kept_plain (line : CommandLine) : Plain line.kept := by
  refine keptText_plain fun body hbody => ?_
  obtain ⟨a, -, rfl⟩ := List.mem_map.mp (List.mem_filter.mp hbody).1
  exact a.body_plain

/-! ## Later writes -/

/-- `c'` has the header of `c` and its bytes up to the payload, and is no shorter. -/
structure Behind (c c' : Collector) : Prop where
  hdr : c'.hdr = c.hdr
  start : c'.memPtrStart = c.memPtrStart
  ptr : c.memPtr ≤ c'.memPtr
  frame : ∀ k < c.memPtrStart, c'.nodesMem k = c.nodesMem k

theorem Behind.refl (c : Collector) : Behind c c := ⟨rfl, rfl, Nat.le_refl _, fun _ _ => rfl⟩

theorem Behind.trans {c c' c'' : Collector} (h : Behind c c') (h' : Behind c' c'') :
    Behind c c'' where
  hdr := h'.hdr.trans h.hdr
  start := h'.start.trans h.start
  ptr := Nat.le_trans h.ptr h'.ptr
  frame k hk := (h'.frame k (h.start ▸ hk)).trans (h.frame k hk)

theorem copyOut_behind {c c' : Collector} {src : List UInt8} (hptr : c.memPtrStart ≤ c.memPtr)
    (h : copyOut c src = some c') : Behind c c' ∧ c'.memPtr = c.memPtr + src.length := by
  unfold copyOut at h
  split at h
  · cases h
  · cases h
    exact ⟨⟨rfl, rfl, Nat.le_add_right _ _, fun k hk => blit_of_lt src (by omega)⟩, rfl⟩

/-- An entry of the table and the bytes it stands for. -/
theorem insertCopy_behind {c c1 c' : Collector} {obj size xloc : Nat} {src : List UInt8}
    (hptr : c.memPtrStart ≤ c.memPtr) (hins : insertObj c obj size = some c1)
    (hcopy : copyOut { c1 with xlocAddr := xloc } src = some c') :
    Behind c c' ∧ c'.memPtr = c.memPtr + src.length := by
  have hc1 := insertObj_eq hins
  subst hc1
  obtain ⟨hb, hlen⟩ := copyOut_behind (by exact hptr) hcopy
  exact ⟨⟨hb.hdr, hb.start, hb.ptr, hb.frame⟩, hlen⟩

/-- **A write** stays behind the header: it changes no byte before the payload. -/
theorem writeStep_behind {c c' : Collector} {op : WriteOp} (hptr : c.memPtrStart ≤ c.memPtr)
    (h : writeStep c op = some c') : Behind c c' := by
  cases op with
  | write addr src =>
    simp only [writeStep, memWrite] at h
    split at h
    · cases h
      exact Behind.refl c
    · obtain ⟨c1, hins, hcopy⟩ := Option.bind_eq_some_iff.mp h
      exact (insertCopy_behind hptr hins hcopy).1
  | loc src =>
    simp only [writeStep, memWriteLoc] at h
    obtain ⟨c1, hins, hcopy⟩ := Option.bind_eq_some_iff.mp h
    exact (insertCopy_behind hptr hins hcopy).1
  | path addr realpath =>
    cases realpath with
    | none => simp [writeStep, memWritePath] at h
    | some path =>
      simp only [writeStep, memWritePath] at h
      obtain ⟨c1, hins, hcopy⟩ := Option.bind_eq_some_iff.mp h
      exact (insertCopy_behind hptr hins hcopy).1
  | token node src following kind =>
    simp only [writeStep, cppToken] at h
    split at h
    · cases h
      exact Behind.refl c
    · rename_i hn
      obtain ⟨c1, hw, rfl⟩ := Option.map_eq_some_iff.mp h
      rw [memWrite, if_neg hn] at hw
      obtain ⟨c2, hins, hcopy⟩ := Option.bind_eq_some_iff.mp hw
      obtain ⟨hb, hlen⟩ := insertCopy_behind hptr hins hcopy
      rw [List.length_append, List.length_singleton] at hlen
      -- the kind goes over the byte that was just copied
      refine hb.trans ⟨rfl, rfl, Nat.le_refl _, fun k hk => blit_of_lt [kind] ?_⟩
      rw [hb.start] at hk
      omega
  | seen obj idx =>
    simp only [writeStep, globalSeen] at h
    split at h
    · cases h
      exact ⟨rfl, rfl, Nat.le_refl _, fun _ _ => rfl⟩
    · cases h
  | tag curIdx idx =>
    simp only [writeStep, tagGlobal] at h
    split at h
    · cases h
      exact ⟨rfl, rfl, Nat.le_refl _, fun _ _ => rfl⟩
    · cases h

/-- Any list of writes. -/
theorem exec_behind : ∀ {ops : List WriteOp} {c c' : Collector}, c.memPtrStart ≤ c.memPtr →
    exec writeStep c ops = some c' → Behind c c'
  | [], c, c', _, h => by
    cases h
    exact Behind.refl c
  | op :: ops, c, c', hptr, h => by
    cases hs : writeStep c op with
    | none => simp [exec, hs] at h
    | some c1 =>
      rw [exec_cons_of_step hs] at h
      have hb := writeStep_behind hptr hs
      exact hb.trans (exec_behind (hb.start ▸ Nat.le_trans hptr hb.ptr) h)

/-- What comes behind the regions does not change them. -/
theorem RegionsRight.behind {path cmd : List UInt8} {c c' : Collector} (hb : Behind c c')
    (h : RegionsRight path cmd c.hdr c.nodesMem c.memPtrStart) :
    RegionsRight path cmd c'.hdr c'.nodesMem c'.memPtrStart := by
  have hpay := h.payload_start
  have hstart := h.cmd_start
  refine ⟨?_, ?_, ?_, ?_, ?_, h.cmd_plain, ?_⟩
  · rw [hb.hdr]
    exact h.path_len
  · refine (readRange_congr fun k _ hk => hb.frame k ?_).trans h.path_text
    omega
  · rw [hb.hdr]
    exact hstart
  · rw [hb.hdr]
    exact h.cmd_len
  · rw [hb.hdr]
    refine (readRange_congr fun k _ hk => hb.frame k ?_).trans h.cmd_text
    omega
  · rw [hb.hdr, hb.start]
    exact hpay

/-! ## The regions -/

/-- **The header writer** meets its purpose: it makes a record whose regions are right and stay
    right whatever is written later. -/
def HeaderRight (path cmd : List UInt8) (c : Collector) : Prop :=
  ∀ ops c', exec writeStep c ops = some c' →
    RegionsRight path cmd c'.hdr c'.nodesMem c'.memPtrStart

theorem headerRight_iff {path cmd : List UInt8} {c : Collector} (hptr : c.memPtrStart ≤ c.memPtr) :
    HeaderRight path cmd c ↔ RegionsRight path cmd c.hdr c.nodesMem c.memPtrStart :=
  ⟨fun h => h [] c rfl, fun h _ _ hexec => h.behind (exec_behind hptr hexec)⟩

/-- The compiler process has a directory and a file whose path fits, and its options are `line`. -/
structure Runs (env : CompileEnv) (cwd : List UInt8) (line : CommandLine) : Prop where
  dir : env.getcwd = some cwd
  fits : cwd.length + env.mainInputFilename.length + 1 < PATH_MAX
  options : env.collectGccOptions = some line.text

/-- What `get_compiling_args` leaves: the path, behind it the kept arguments, and their length in
    16 bits. -/
theorem getCompilingArgs_runs {env : CompileEnv} {cwd : List UInt8} {line : CommandLine}
    (h : Runs env cwd line) : ∃ c, getCompilingArgs env = some c ∧
      c.hdr.pathLen = (sourcePath cwd env.mainInputFilename ++ [0]).length ∧
      c.hdr.cmdLen = (line.kept.length + 1) % 2 ^ 16 ∧
      c.memPtrStart = fcPldptr c.hdr ∧ c.memPtr = c.memPtrStart ∧
      readRange c.nodesMem PATH_OFFS (sourcePath cwd env.mainInputFilename ++ [0]).length =
        sourcePath cwd env.mainInputFilename ++ [0] ∧
      readRange c.nodesMem (fcCmdptr c.hdr) (line.kept ++ [0]).length = line.kept ++ [0] := by
  set path := sourcePath cwd env.mainInputFilename with hpath
  set start := SIZEOF_FILE_CONTENT - PATH_MAX + (path.length + 1) with hstart
  set mem := blit (fun _ => (0 : UInt8)) PATH_OFFS (path ++ [0]) with hmem
  have hbehind : PATH_OFFS + (path ++ [0]).length ≤ start := by
    simp only [hstart, PATH_OFFS, SIZEOF_FILE_CONTENT, PATH_MAX, List.length_append,
      List.length_singleton]
    omega
  have hcopied : Copied mem start ([] ++ line.kept)
      (ArgCopy.pushAll ⟨start, 0, mem⟩ (keptArgs line.args)) :=
    Copied.pushAll ⟨rfl, rfl, rfl, fun _ _ => rfl, fun _ _ => rfl⟩
  rw [List.nil_append] at hcopied
  have hcopy := copyArgs_line line.tail_open line.args ⟨start, 0, mem⟩
  generalize ArgCopy.pushAll ⟨start, 0, mem⟩ (keptArgs line.args) = st at hcopied hcopy
  have hlen : path.length + 1 = (path ++ [0]).length := by simp
  have hrun : ∃ hdr : FileContent, hdr.pathLen = path.length + 1 ∧
      hdr.cmdLen = (st.cmdLen + 1) % 2 ^ 16 ∧
      getCompilingArgs env =
        some ⟨hdr, st.nodesMem, fcPldptr hdr, fcPldptr hdr, [], 2 ^ 64 - 1⟩ := by
    have hfits := h.fits
    unfold getCompilingArgs
    simp only [h.dir, h.options]
    rw [if_neg (by omega)]
    split
    · rename_i heq
      exact absurd (heq.symm.trans hcopy) (by simp)
    · rename_i st' heq
      cases Option.some.inj (heq.symm.trans hcopy)
      exact ⟨_, by rfl, by rfl, rfl⟩
  obtain ⟨hdr, hpathLen, hcmdLen, hc⟩ := hrun
  have hcmd : fcCmdptr hdr = start := by
    rw [fcCmdptr, hpathLen]
  refine ⟨_, hc, hpathLen.trans hlen, ?_, rfl, rfl, ?_, ?_⟩
  · show hdr.cmdLen = _
    rw [hcmdLen, hcopied.cmd_len, Nat.mod_add_mod]
  · have hfirst : readRange mem PATH_OFFS (path ++ [0]).length = path ++ [0] :=
      readRange_blit _ PATH_OFFS (path ++ [0])
    exact (readRange_congr fun k _ hk => hcopied.before k (by omega)).trans hfirst
  · show readRange st.nodesMem (fcCmdptr hdr) _ = _
    rw [hcmd, List.length_append, readRange_add, hcopied.text]
    refine congrArg _ ?_
    -- the terminator is a byte that nothing has been written to
    have hzero : st.nodesMem (start + line.kept.length) = 0 := by
      rw [hcopied.behind _ (Nat.le_of_eq hcopied.cmd)]
      exact blit_of_le (by omega)
    simp [readRange, hzero]

/-- **The regions of the header** are right if and only if the command line with its terminator
    has a length of 16 bits. -/
theorem header_regions {env : CompileEnv} {cwd : List UInt8} {line : CommandLine}
    (h : Runs env cwd line) : ∃ c, getCompilingArgs env = some c ∧
      (HeaderRight (sourcePath cwd env.mainInputFilename) line.kept c ↔
        line.kept.length + 1 < 2 ^ 16) := by
  obtain ⟨c, hc, hpath, hcmd, hstart, hptr, hpathText, hcmdText⟩ := getCompilingArgs_runs h
  refine ⟨c, hc, ?_⟩
  rw [headerRight_iff (Nat.le_of_eq hptr.symm)]
  constructor
  · intro hr
    have hlen := hr.cmd_len
    rw [hcmd, List.length_append, List.length_singleton] at hlen
    omega
  · intro hsmall
    rw [Nat.mod_eq_of_lt hsmall] at hcmd
    have hlen : c.hdr.cmdLen = (line.kept ++ [0]).length := by
      rw [hcmd, List.length_append, List.length_singleton]
    refine ⟨hpath, hpathText, ?_, hlen, hcmdText, line.kept_plain, ?_⟩
    · simp only [fcCmdptr, hpath, SIZEOF_FILE_CONTENT, PATH_MAX, PATH_OFFS]
      omega
    · rw [hstart, ← hlen]
      rfl

/-! ## Runs -/

/-- A compilation of `a.c` in `/` with the given options. -/
def rootEnv (line : CommandLine) : CompileEnv where
  isKernel := true
  gccVer := 8
  gccVerMinor := 3
  getcwd := some [SLASH]
  mainInputFilename := [97, 46, 99]
  collectGccOptions := some line.text

theorem rootEnv_runs (line : CommandLine) : Runs (rootEnv line) [SLASH] line :=
  ⟨rfl, (by decide : 1 + 3 + 1 < PATH_MAX), rfl⟩

/-- `'-fplugin' '-c'`. -/
def pluginLine : CommandLine where
  args :=
    [⟨[], FPLUGIN, by decide, by decide, by decide, by decide⟩,
      ⟨[BLANK], [45, 99], by decide, by decide, by decide, by decide⟩]
  tail := []
  tail_plain := by decide
  tail_open := by decide

/-- Of the two options the second is kept. -/
theorem header_regions_plugin : pluginLine.kept = quoted [45, 99] ++ [BLANK] ∧
    ∃ c, getCompilingArgs (rootEnv pluginLine) = some c ∧
      HeaderRight (sourcePath [SLASH] [97, 46, 99]) pluginLine.kept c := by
  have hkept : pluginLine.kept = quoted [45, 99] ++ [BLANK] := by decide
  obtain ⟨c, hc, hiff⟩ := header_regions (rootEnv_runs pluginLine)
  exact ⟨hkept, c, hc, hiff.mpr (by rw [hkept]; decide)⟩

/-- One option of `n + 1` letters. -/
def letterLine (n : Nat) : CommandLine where
  args :=
    [⟨[], 97 :: List.replicate n 97, by simp [Plain], by simp, by simp [Plain, List.mem_replicate],
      by simp [QUOTE, List.mem_replicate]⟩]
  tail := []
  tail_plain := by simp [Plain]
  tail_open := by simp

theorem letterLine_kept (n : Nat) : (letterLine n).kept.length = n + 4 := by
  have hkept : (letterLine n).kept = keptText [97 :: List.replicate n 97] := rfl
  simp [hkept, keptText, quoted]

/-- **A long command line**: with its terminator it fills 64 KiB, the length that is stored is 0,
    and the payload starts where the command line does. -/
theorem long_line_overlaps : ∃ c, getCompilingArgs (rootEnv (letterLine 65531)) = some c ∧
    c.memPtrStart = fcCmdptr c.hdr ∧
    ¬ HeaderRight (sourcePath [SLASH] [97, 46, 99]) (letterLine 65531).kept c := by
  obtain ⟨c, hc, -, hcmd, hstart, -, -⟩ := getCompilingArgs_runs (rootEnv_runs (letterLine 65531))
  rw [letterLine_kept] at hcmd
  refine ⟨c, hc, by simp [hstart, fcPldptr, fcCmdptr, hcmd], fun hright => ?_⟩
  have hlen := (hright [] c rfl).cmd_len
  rw [hcmd, List.length_append, letterLine_kept] at hlen
  simp at hlen

end Srcinv.Collect
