import Mathlib.Algebra.BigOperators.Group.List.Basic
import Mathlib.Algebra.Order.Group.Int
import Mathlib.Logic.Function.Basic
import Mathlib.Data.List.Nodup
import Srcinv.Core
import Srcinv.Lib.Run

/-!
# Holding, dropping and collecting sibufs (`analysis/resfile.c`)

`sibuf_hold` maps a sibuf and records the calling thread in `users`; `resfile_gc` unmaps the
sibufs nobody uses.  `gc_lock` is held through each critical section, so a step of the model is
one critical section of `resfile_load`; a collection has one step per sibuf it looks at, because
`sibuf_drop` takes only the lock of its sibuf and can come in between.

* `usage_exact` — over every run, `sibuf_mem_usage` is the length of what is mapped exactly when
  no load that had to wait for room maps a sibuf that somebody else mapped meanwhile.
* `waiting_loads_count_twice` — two threads waiting for room for one sibuf break it.
-/

namespace Srcinv.Analysis

open Srcinv.Lib

/-! ## The state -/

/-- The fields of a sibuf that loading uses; threads are numbers. -/
structure LoadBuf where
  rf : Nat
  loadAddr : Nat
  totalLen : Nat
  needUnload : Bool
  users : List Nat
  deriving DecidableEq, Repr

/-- Where a thread is in `resfile_load`. -/
inductive LoadPc where
  /-- Not in `resfile_load`. -/
  | out
  /-- No room: `gc_lock` is released and `resfile_gc` comes next. -/
  | full (i : Nat)
  /-- `resfile_gc` has returned and the loop at `mmap_again0` comes next. -/
  | again (i : Nat)
  deriving DecidableEq, Repr

/-- A `resfile_gc` that has `gc_lock`: who runs it, the next sibuf, and whether `gc_target` is
    set. -/
structure Sweep where
  thread : Nat
  pos : Nat
  target : Bool
  deriving DecidableEq, Repr

/-- The part of the src that loading works on, with the threads. -/
structure LoadSrc where
  bufs : List LoadBuf
  opened : Nat → Bool
  sibufMemUsage : Int
  sweep : Option Sweep
  pc : Nat → LoadPc

/-- What the process finds around it: its paths and its memory limit. -/
structure LoadEnv where
  R : Rounding
  path : Nat → List UInt8
  sibufLoadedMax : Nat

/-- What opening a resfile meets: the working directory, and whether `open` succeeds. -/
structure OpenEnv where
  workdir : Option (List UInt8)
  opens : Bool

/-- How `mmap` ends. -/
inductive MmapResult where
  | ok
  | enomem
  | other
  deriving DecidableEq, Repr

/-! ## The code -/

/-- `sibuf_add_user`. -/
def sibufAddUser (users : List Nat) (user : Nat) : List Nat × Int :=
  if user ∈ users then (users, 1) else (users ++ [user], 0)

/-- `sibuf_del_user`. -/
def sibufDelUser (users : List Nat) (user : Nat) : List Nat := users.erase user

/-- The working directory is a prefix of the path:
    `strncmp(path, workdir, strlen(workdir)) == 0`. -/
def OpenEnv.covers (env : OpenEnv) (path : List UInt8) : Bool :=
  match env.workdir with
  | none => false
  | some dir => dir.isPrefixOf path

/-- The head of `resfile_load`, which opens the resfile.  The flag says whether to go on; a
    failing `open` is a `BUG`. -/
def openFd (E : LoadEnv) (st : LoadSrc) (rf : Nat) (env : OpenEnv) : Option (LoadSrc × Bool) :=
  if st.opened rf then some (st, true)
  else if !env.covers (E.path rf) then some (st, false)
  else if env.opens then some ({ st with opened := Function.update st.opened rf true }, true)
  else none

/-- The number of bytes `mmap` is asked for. -/
def mmapSize (R : Rounding) (buf : LoadBuf) : Nat :=
  R.up (buf.loadAddr + buf.totalLen) - R.down buf.loadAddr

/-- From the label `fill_buf` on. -/
def fillBuf (st : LoadSrc) (user i : Nat) (buf : LoadBuf) : LoadSrc × Int :=
  let (users, held) := sibufAddUser buf.users user
  ({ st with
     bufs := st.bufs.set i { buf with needUnload := true, users := users }
     pc := Function.update st.pc user .out }, held)

/-- There is room for the sibuf. -/
def HasRoom (E : LoadEnv) (st : LoadSrc) (buf : LoadBuf) : Prop :=
  st.sibufMemUsage + mmapSize E.R buf ≤ E.sibufLoadedMax

instance (E : LoadEnv) (st : LoadSrc) (buf : LoadBuf) : Decidable (HasRoom E st buf) :=
  inferInstanceAs (Decidable (_ ≤ _))

/-- From the label `mmap_again0` to the end, or to the next release of `gc_lock`. -/
def mmapAgain (E : LoadEnv) (st : LoadSrc) (user i : Nat) (buf : LoadBuf) (m : MmapResult) :
    Option (LoadSrc × Option Int) :=
  if HasRoom E st buf then
    match m with
    | .ok =>
      let (st, held) :=
        fillBuf { st with sibufMemUsage := st.sibufMemUsage + buf.totalLen } user i buf
      some (st, some held)
    | .enomem => some ({ st with pc := Function.update st.pc user (.full i) }, none)
    | .other => none
  else some ({ st with pc := Function.update st.pc user (.full i) }, none)

/-- `resfile_load` up to its end or its first release of `gc_lock`. -/
def resfileLoad (E : LoadEnv) (st : LoadSrc) (user i : Nat) (buf : LoadBuf) (env : OpenEnv)
    (m : MmapResult) : Option (LoadSrc × Option Int) :=
  match openFd E st buf.rf env with
  | none => none
  | some (st, false) => some (st, some (-1))
  | some (st, true) =>
    if buf.needUnload then
      let (st, held) := fillBuf st user i buf
      some (st, some held)
    else mmapAgain E st user i buf m

/-- `resfile_unload`; a failing `munmap` is a `BUG`. -/
def resfileUnload (st : LoadSrc) (i : Nat) (buf : LoadBuf) (unmaps : Bool) : Option LoadSrc :=
  if !buf.needUnload then some st
  else if !unmaps then none
  else some { st with
    bufs := st.bufs.set i { buf with needUnload := false, users := [] }
    sibufMemUsage := st.sibufMemUsage - buf.totalLen }

/-- The body of the loop of `resfile_gc`. -/
def gcBody (st : LoadSrc) (s : Sweep) (buf : LoadBuf) (unmaps : Bool) : Option LoadSrc :=
  if !buf.needUnload then some { st with sweep := some { s with pos := s.pos + 1 } }
  else if buf.users.isEmpty then
    (resfileUnload st s.pos buf unmaps).map fun st =>
      { st with sweep := some { s with pos := s.pos + 1, target := true } }
  else some { st with sweep := some { s with pos := s.pos + 1 } }

/-- The end of `resfile_gc`: a thread that called it from `resfile_load` goes on there. -/
def gcEnd (st : LoadSrc) (s : Sweep) : LoadSrc :=
  { st with
    sweep := none
    pc := match st.pc s.thread with
      | .full i => Function.update st.pc s.thread (.again i)
      | _ => st.pc }

/-- What a thread can do. -/
inductive LoadEvent where
  /-- Enter `sibuf_hold` of the `i`-th sibuf. -/
  | hold (user i : Nat) (env : OpenEnv) (m : MmapResult)
  /-- Take `gc_lock` again in `resfile_load`. -/
  | again (user : Nat) (m : MmapResult)
  /-- `sibuf_drop` of the `i`-th sibuf. -/
  | drop (user i : Nat)
  /-- Enter `resfile_gc`. -/
  | gc (user : Nat)
  /-- Go on in `resfile_gc`. -/
  | sweep (unmaps : Bool)

/-- What a function returns when a step reaches its end. -/
inductive LoadRet where
  | hold (user i : Nat) (held : Int)
  | gc (err : Int)
  deriving DecidableEq, Repr

/-- The thread is not in the middle of a function. -/
def LoadSrc.idle (st : LoadSrc) (user : Nat) : Bool :=
  st.pc user = .out && st.sweep.all fun s => s.thread ≠ user

/-- One step: a critical section under `gc_lock`, or one under the lock of a sibuf. -/
def loadStep (E : LoadEnv) (st : LoadSrc) : LoadEvent → Option (LoadSrc × Option LoadRet)
  | .hold user i env m =>
    if st.sweep.isSome || !st.idle user then none
    else match st.bufs[i]? with
      | none => none
      | some buf => (resfileLoad E st user i buf env m).map fun r =>
          (r.1, r.2.map (LoadRet.hold user i))
  | .again user m =>
    match st.sweep, st.pc user with
    | none, .again i =>
      match st.bufs[i]? with
      | none => none
      | some buf => (mmapAgain E st user i buf m).map fun r =>
          (r.1, r.2.map (LoadRet.hold user i))
    | _, _ => none
  | .drop user i =>
    if !st.idle user then none
    else match st.bufs[i]? with
      | none => none
      | some buf => some ({ st with
          bufs := st.bufs.set i { buf with users := sibufDelUser buf.users user } }, none)
  | .gc user =>
    match st.sweep, st.pc user with
    | none, .again _ => none
    | none, _ => some ({ st with sweep := some ⟨user, 0, false⟩ }, none)
    | some _, _ => none
  | .sweep unmaps =>
    match st.sweep with
    | none => none
    | some s =>
      match st.bufs[s.pos]? with
      | some buf => (gcBody st s buf unmaps).map fun st => (st, none)
      | none => some (gcEnd st s, some (.gc (if s.target then 0 else -1)))

/-- The state after a step. -/
def loadNext (E : LoadEnv) (st : LoadSrc) (e : LoadEvent) : Option LoadSrc :=
  (loadStep E st e).map Prod.fst

/-- The state before anything is loaded: the resfile, address and length of each sibuf, and the
    resfiles that are open. -/
def LoadSrc.start (sibufs : List (Nat × Nat × Nat)) (opened : Nat → Bool) : LoadSrc where
  bufs := sibufs.map fun b => ⟨b.1, b.2.1, b.2.2, false, []⟩
  opened := opened
  sibufMemUsage := 0
  sweep := none
  pc _ := .out

/-! ## What a step can do -/

/-- Everything a step can do, with what the code has checked by then. -/
inductive LoadMove (E : LoadEnv) (st : LoadSrc) : LoadEvent → LoadSrc → Option LoadRet → Prop
  /-- The resfile is not under the working directory. -/
  | refused {user i : Nat} {env : OpenEnv} {m : MmapResult} {buf : LoadBuf}
      (hbuf : st.bufs[i]? = some buf)
      (hclosed : st.opened buf.rf = false) (hdir : env.covers (E.path buf.rf) = false) :
      LoadMove E st (.hold user i env m) st (some (.hold user i (-1)))
  /-- The sibuf is mapped already. -/
  | attached {user i : Nat} {env : OpenEnv} {m : MmapResult} {buf : LoadBuf}
      {opened : Nat → Bool} (hbuf : st.bufs[i]? = some buf)
      (hopen : opened buf.rf = true) (hkeep : ∀ rf, st.opened rf = true → opened rf = true)
      (hloaded : buf.needUnload = true) :
      LoadMove E st (.hold user i env m) (fillBuf { st with opened := opened } user i buf).1
        (some (.hold user i (sibufAddUser buf.users user).2))
  /-- The sibuf is mapped in the critical section that found it unmapped. -/
  | mapped {user i : Nat} {env : OpenEnv} {buf : LoadBuf} {opened : Nat → Bool}
      (hbuf : st.bufs[i]? = some buf)
      (hopen : opened buf.rf = true) (hkeep : ∀ rf, st.opened rf = true → opened rf = true)
      (hunloaded : buf.needUnload = false) (hroom : HasRoom E st buf) :
      LoadMove E st (.hold user i env .ok)
        (fillBuf { st with
          opened := opened, sibufMemUsage := st.sibufMemUsage + buf.totalLen } user i buf).1
        (some (.hold user i (sibufAddUser buf.users user).2))
  /-- The sibuf is mapped in a later critical section. -/
  | remapped {user i : Nat} {buf : LoadBuf} (hsweep : st.sweep = none)
      (hpc : st.pc user = .again i) (hbuf : st.bufs[i]? = some buf) (hroom : HasRoom E st buf) :
      LoadMove E st (.again user .ok)
        (fillBuf { st with sibufMemUsage := st.sibufMemUsage + buf.totalLen } user i buf).1
        (some (.hold user i (sibufAddUser buf.users user).2))
  /-- There is no room. -/
  | waits {user i : Nat} {env : OpenEnv} {m : MmapResult} {buf : LoadBuf}
      {opened : Nat → Bool} (hbuf : st.bufs[i]? = some buf)
      (hopen : opened buf.rf = true) (hkeep : ∀ rf, st.opened rf = true → opened rf = true) :
      LoadMove E st (.hold user i env m)
        { st with opened := opened, pc := Function.update st.pc user (.full i) } none
  /-- There is still no room. -/
  | waitsAgain {user i : Nat} {m : MmapResult} (hpc : st.pc user = .again i) :
      LoadMove E st (.again user m) { st with pc := Function.update st.pc user (.full i) } none
  | drops {user i : Nat} {buf : LoadBuf} (hbuf : st.bufs[i]? = some buf) :
      LoadMove E st (.drop user i)
        { st with bufs := st.bufs.set i { buf with users := sibufDelUser buf.users user } } none
  | sweeps {user : Nat} (hfree : st.sweep = none) :
      LoadMove E st (.gc user) { st with sweep := some ⟨user, 0, false⟩ } none
  /-- The sibuf is not mapped, or has users. -/
  | skips {unmaps : Bool} {s : Sweep} (hs : st.sweep = some s) :
      LoadMove E st (.sweep unmaps) { st with sweep := some { s with pos := s.pos + 1 } } none
  /-- The sibuf is mapped and has no user. -/
  | unloads {s : Sweep} {buf : LoadBuf} (hs : st.sweep = some s)
      (hbuf : st.bufs[s.pos]? = some buf) (hloaded : buf.needUnload = true)
      (hfree : buf.users = []) :
      LoadMove E st (.sweep true)
        { st with
          bufs := st.bufs.set s.pos { buf with needUnload := false, users := [] }
          sibufMemUsage := st.sibufMemUsage - buf.totalLen
          sweep := some { s with pos := s.pos + 1, target := true } } none
  | ends {unmaps : Bool} {s : Sweep} (hs : st.sweep = some s) :
      LoadMove E st (.sweep unmaps) (gcEnd st s) (some (.gc (if s.target then 0 else -1)))

variable {E : LoadEnv} {st st' : LoadSrc}

/-- Opening a resfile opens no other and closes none. -/
theorem openFd_cases {rf : Nat} {env : OpenEnv} {go : Bool}
    (h : openFd E st rf env = some (st', go)) :
    (go = false ∧ st' = st ∧ st.opened rf = false ∧ env.covers (E.path rf) = false) ∨
      (go = true ∧ ∃ opened, st' = { st with opened := opened } ∧ opened rf = true ∧
        ∀ r, st.opened r = true → opened r = true) := by
  unfold openFd at h
  split at h
  · rename_i hop
    cases h
    exact Or.inr ⟨rfl, st.opened, rfl, hop, fun _ hr => hr⟩
  split at h
  · rename_i hop hdir
    cases h
    exact Or.inl ⟨rfl, rfl, by simpa using hop, by simpa using hdir⟩
  split at h
  · cases h
    refine Or.inr ⟨rfl, _, rfl, Function.update_self .., fun r hr => ?_⟩
    rw [Function.update_apply]
    split
    · rfl
    · exact hr
  · cases h

/-- The sibuf is mapped, or there is no room for it. -/
theorem mmapAgain_cases {user i : Nat} {buf : LoadBuf} {m : MmapResult} {r : Option Int}
    (h : mmapAgain E st user i buf m = some (st', r)) :
    (HasRoom E st buf ∧ m = .ok ∧ r = some (sibufAddUser buf.users user).2 ∧
      st' = (fillBuf { st with sibufMemUsage := st.sibufMemUsage + buf.totalLen } user i buf).1) ∨
      (r = none ∧ st' = { st with pc := Function.update st.pc user (.full i) }) := by
  unfold mmapAgain at h
  split at h
  · rename_i hroom
    cases m with
    | ok =>
      cases h
      exact Or.inl ⟨hroom, rfl, rfl, rfl⟩
    | enomem =>
      cases h
      exact Or.inr ⟨rfl, rfl⟩
    | other => cases h
  · cases h
    exact Or.inr ⟨rfl, rfl⟩

/-- The sweep goes past a sibuf, or unmaps it when it is mapped and has no user. -/
theorem gcBody_cases {s : Sweep} {buf : LoadBuf} {unmaps : Bool}
    (h : gcBody st s buf unmaps = some st') :
    st' = { st with sweep := some { s with pos := s.pos + 1 } } ∨
      (buf.needUnload = true ∧ buf.users = [] ∧ unmaps = true ∧
        st' = { st with
          bufs := st.bufs.set s.pos { buf with needUnload := false, users := [] }
          sibufMemUsage := st.sibufMemUsage - buf.totalLen
          sweep := some { s with pos := s.pos + 1, target := true } }) := by
  unfold gcBody at h
  split at h
  · cases h
    exact Or.inl rfl
  rename_i hloaded
  split at h
  · rename_i husers
    obtain ⟨st₂, hunload, rfl⟩ := Option.map_eq_some_iff.mp h
    unfold resfileUnload at hunload
    rw [if_neg hloaded] at hunload
    split at hunload
    · cases hunload
    rename_i hunmaps
    cases hunload
    exact Or.inr ⟨by simpa using hloaded, by simpa using husers, by simpa using hunmaps, rfl⟩
  · cases h
    exact Or.inl rfl

/-- **One inversion for all steps.** -/
theorem loadStep_move {e : LoadEvent} {r : Option LoadRet}
    (h : loadStep E st e = some (st', r)) : LoadMove E st e st' r := by
  cases e with
  | hold user i env m =>
    simp only [loadStep] at h
    split at h
    · cases h
    split at h
    · cases h
    rename_i buf hbuf
    obtain ⟨⟨st₁, r₁⟩, hload, hst⟩ := Option.map_eq_some_iff.mp h
    cases hst
    unfold resfileLoad at hload
    split at hload
    · cases hload
    · rename_i st₂ hopen
      cases hload
      obtain ⟨-, rfl, hclosed, hdir⟩ | ⟨hgo, -⟩ := openFd_cases hopen
      · exact .refused hbuf hclosed hdir
      · cases hgo
    · rename_i st₂ hopen
      obtain ⟨hgo, -⟩ | ⟨-, opened, rfl, hrf, hkeep⟩ := openFd_cases hopen
      · cases hgo
      split at hload
      · rename_i hloaded
        cases hload
        exact .attached hbuf hrf hkeep hloaded
      rename_i hunloaded
      obtain ⟨hroom, rfl, rfl, rfl⟩ | ⟨rfl, rfl⟩ := mmapAgain_cases hload
      · exact .mapped hbuf hrf hkeep (by simpa using hunloaded) hroom
      · exact .waits hbuf hrf hkeep
  | again user m =>
    simp only [loadStep] at h
    split at h
    · rename_i i hsweep hpc
      split at h
      · cases h
      rename_i buf hbuf
      obtain ⟨⟨st₁, r₁⟩, hload, hst⟩ := Option.map_eq_some_iff.mp h
      cases hst
      obtain ⟨hroom, rfl, rfl, rfl⟩ | ⟨rfl, rfl⟩ := mmapAgain_cases hload
      · exact .remapped hsweep hpc hbuf hroom
      · exact .waitsAgain hpc
    · cases h
  | drop user i =>
    simp only [loadStep] at h
    split at h
    · cases h
    split at h
    · cases h
    rename_i buf hbuf
    cases h
    exact .drops hbuf
  | gc user =>
    simp only [loadStep] at h
    split at h
    · cases h
    · rename_i hfree _
      cases h
      exact .sweeps hfree
    · cases h
  | sweep unmaps =>
    simp only [loadStep] at h
    split at h
    · cases h
    rename_i s hs
    split at h
    · rename_i buf hbuf
      obtain ⟨st₁, hbody, hst⟩ := Option.map_eq_some_iff.mp h
      cases hst
      obtain rfl | ⟨hloaded, husers, rfl, rfl⟩ := gcBody_cases hbody
      · exact .skips hs
      · exact .unloads hs hbuf hloaded husers
    · cases h
      exact .ends hs

theorem loadNext_move {e : LoadEvent} (h : loadNext E st e = some st') :
    ∃ r, LoadMove E st e st' r := by
  obtain ⟨⟨st₁, r⟩, hstep, rfl⟩ := Option.map_eq_some_iff.mp h
  exact ⟨r, loadStep_move hstep⟩

/-! ## The memory in use -/

/-- What a sibuf counts for. -/
def LoadBuf.loaded (b : LoadBuf) : Int := if b.needUnload then b.totalLen else 0

/-- The sum of `total_len` over the sibufs whose `need_unload` is set. -/
def loadedLen (bufs : List LoadBuf) : Int := (bufs.map LoadBuf.loaded).sum

/-- `sibuf_mem_usage` is the length of what is mapped. -/
def UsageExact (st : LoadSrc) : Prop := st.sibufMemUsage = loadedLen st.bufs

/-- A load that takes `gc_lock` again to map its sibuf finds it still unmapped (or empty). -/
def MapsOnce (E : LoadEnv) (st : LoadSrc) : LoadEvent → Prop
  | .again user .ok => ∀ i buf, st.sweep = none → st.pc user = .again i →
      st.bufs[i]? = some buf → HasRoom E st buf → buf.needUnload = false ∨ buf.totalLen = 0
  | _ => True

theorem loadedLen_set {bufs : List LoadBuf} {i : Nat} {b : LoadBuf} (h : bufs[i]? = some b)
    (b' : LoadBuf) : loadedLen (bufs.set i b') = loadedLen bufs - b.loaded + b'.loaded := by
  induction bufs generalizing i with
  | nil => cases h
  | cons c cs ih =>
    cases i with
    | zero =>
      obtain rfl : c = b := by simpa using h
      simp only [loadedLen, List.set_cons_zero, List.map_cons, List.sum_cons]
      omega
    | succ i =>
      have hrec := ih (i := i) (by simpa using h)
      simp only [loadedLen, List.set_cons_succ, List.map_cons, List.sum_cons] at hrec ⊢
      omega

/-- Filling counts a sibuf that was not counted. -/
theorem usageExact_fillBuf {user i : Nat} {b : LoadBuf} (h : st.bufs[i]? = some b) :
    UsageExact (fillBuf st user i b).1 ↔
      st.sibufMemUsage = loadedLen st.bufs - b.loaded + b.totalLen := by
  have hlen : loadedLen (fillBuf st user i b).1.bufs =
      loadedLen st.bufs - b.loaded + b.totalLen := loadedLen_set h _
  rw [UsageExact, hlen]
  rfl

/-- A step that maps only what is unmapped keeps the count. -/
theorem usageExact_step {e : LoadEvent} (hu : UsageExact st) (hg : MapsOnce E st e)
    (h : loadNext E st e = some st') : UsageExact st' := by
  unfold UsageExact at hu
  obtain ⟨r, hm⟩ := loadNext_move h
  cases hm with
  | refused => exact hu
  | attached hbuf hopen hkeep hloaded =>
    apply (usageExact_fillBuf _).mpr
    · simp only [LoadBuf.loaded, hloaded, if_true]
      omega
    · exact hbuf
  | mapped hbuf hopen hkeep hunloaded hroom =>
    apply (usageExact_fillBuf _).mpr
    · simp only [LoadBuf.loaded, hunloaded]
      simpa using hu
    · exact hbuf
  | remapped hsweep hpc hbuf hroom =>
    apply (usageExact_fillBuf _).mpr
    · obtain hfree | hempty := hg _ _ hsweep hpc hbuf hroom
      · simpa [LoadBuf.loaded, hfree] using hu
      · simpa [LoadBuf.loaded, hempty] using hu
    · exact hbuf
  | waits => exact hu
  | waitsAgain => exact hu
  | drops hbuf =>
    rw [UsageExact, loadedLen_set hbuf]
    exact hu.trans (by simp [LoadBuf.loaded])
  | sweeps => exact hu
  | skips => exact hu
  | unloads hs hbuf hloaded hfree =>
    rw [UsageExact, loadedLen_set hbuf]
    simpa [LoadBuf.loaded, hloaded] using hu
  | ends => exact hu

/-- Mapping what is mapped already counts it twice. -/
theorem usage_breaks {e : LoadEvent} (hu : UsageExact st) (hng : ¬ MapsOnce E st e) :
    ∃ st', loadNext E st e = some st' ∧ ¬ UsageExact st' := by
  unfold UsageExact at hu
  unfold MapsOnce at hng
  split at hng
  · rename_i user
    simp only [not_forall, not_or, Bool.not_eq_false] at hng
    obtain ⟨i, buf, hsweep, hpc, hbuf, hroom, hloaded, hlen⟩ := hng
    refine ⟨(fillBuf { st with sibufMemUsage := st.sibufMemUsage + buf.totalLen } user i buf).1,
      ?_, fun hbad => ?_⟩
    · simp only [loadNext, loadStep, hsweep, hpc, hbuf, mmapAgain, if_pos hroom]
      rfl
    · have hcount := (usageExact_fillBuf (by exact hbuf)).mp hbad
      simp only [LoadBuf.loaded, hloaded, if_true] at hcount
      omega
  · exact absurd trivial hng

theorem usageExact_start (sibufs : List (Nat × Nat × Nat)) (opened : Nat → Bool) :
    UsageExact (.start sibufs opened) := by
  simp only [UsageExact, LoadSrc.start, loadedLen]
  induction sibufs with
  | nil => rfl
  | cons b bs ih => simpa [LoadBuf.loaded] using ih

/-- **The memory in use is what is mapped exactly when no waiting load maps a sibuf twice.** -/
theorem usage_exact (E : LoadEnv) (sibufs : List (Nat × Nat × Nat)) (opened : Nat → Bool)
    (es : List LoadEvent) :
    Visits (loadNext E) UsageExact (.start sibufs opened) es ↔
      Along (loadNext E) (MapsOnce E) (.start sibufs opened) es :=
  visits_iff_along (fun _ _ _ hu hg h => usageExact_step hu hg h) (fun _ h => h)
    (fun _ _ hu hng => usage_breaks hu hng) (usageExact_start sibufs opened)

/-! ## Two loads of one sibuf -/

/-- Room for the larger of two sibufs of one resfile. -/
def tightEnv : LoadEnv := ⟨.page, fun _ => [47, 114], 0x2000⟩

def openedEnv : OpenEnv := ⟨some [47], true⟩

/-- While thread 1 uses the larger sibuf, threads 2 and 3 both wait for the other one. -/
def waitingLoads : List LoadEvent :=
  [.hold 1 0 openedEnv .ok, .hold 2 1 openedEnv .ok, .hold 3 1 openedEnv .ok, .drop 1 0,
   .gc 2, .sweep true, .sweep true, .sweep true, .gc 3, .sweep true, .sweep true, .sweep true,
   .again 2 .ok, .again 3 .ok]

/-- Both of them map it and add its length. -/
theorem waiting_loads_count_twice :
    ¬ Visits (loadNext tightEnv) UsageExact
      (.start [(0, 0x1000000000, 0x2000), (0, 0x1000002000, 0x1000)] fun _ => true)
      waitingLoads := by
  intro hv
  have hlast := visits_iff_exec.mp hv waitingLoads [] _ (List.append_nil _).symm rfl
  have husage : (0x2000 : Int) = 0x1000 := hlast
  exact absurd husage (by decide)

end Srcinv.Analysis
