import Mathlib.Algebra.Order.Ring.Int
import Srcinv.Analysis.Sample

/-!
# The static checker and the sets it saves (`hacking/staticchk.cc`)

`staticchk` runs sample sets in a loop until as many as asked for are saved; `staticchk_quick`
runs one set for each function.  Both go through `staticchk_sample_set`, which saves a set that
ends without an error and is not saved already.

* `staticchkLoop_eq` — which pass ends a run, and how.
* `saves_exact` — the saved list is a faithful log, over every order of full and quick runs,
  exactly when at most one set is saved, and that by a full run without issues whose last
  `dec_next` returned 1.
* `quick_saved_as_full` — a quick run is saved as a full one.
-/

namespace Srcinv.Hacking

open Srcinv.Lib Srcinv.Analysis

/-- `staticchk_mode`. -/
inductive StaticchkMode where
  | full
  | quick
  deriving DecidableEq, Repr

/-- `struct sample_set` with the fields that name a set and tell what was found. -/
structure CheckedSet where
  id : Nat
  flag : Nat
  staticchkMode : StaticchkMode
  set : SampleSet

/-- `SAMPLE_SF_DEADLK`. -/
def sampleSfDeadlk : Nat := 9

/-- `sample_set_set_flag`. -/
def CheckedSet.setFlag (sset : CheckedSet) (nr : Nat) : CheckedSet :=
  { sset with flag := sset.flag ||| 2 ^ nr }

/-- The set that `sample_set_alloc` clears; `count` is stored in eight bits. -/
def sampleSetAlloc (count : Nat) : CheckedSet :=
  ⟨0, 0, .full, ⟨count % 256, fun _ => sampleStateAlloc, Nat.mod_lt _ (by decide)⟩⟩

/-- `sample_can_run`. -/
def sampleCanRun (_ : SampleSet) (_ : Nat) : Bool := true

/-- `sample_set_stuck`. -/
def sampleSetStuck (set : SampleSet) : Bool :=
  (List.range set.count).all fun i => !sampleCanRun set i

/-- `sample_set_select_entries`. -/
def sampleSetSelectEntries (_ : SampleSet) : Int := 0

/-! ## A run -/

/-- A pass of the loop: the state that is picked, what `dec_next` returns, what it and the
    submodules leave of the set, and whether the set is done. -/
structure LoopPass where
  idx : Nat
  err : Int
  flag : Nat
  samples : Nat → SampleState
  done : Bool

/-- The set after a pass. -/
def CheckedSet.after (sset : CheckedSet) (p : LoopPass) : CheckedSet :=
  { sset with
    flag := p.flag
    set := ⟨sset.set.count, fun i => p.samples i, sset.set.count_lt⟩ }

/-- How `staticchk_sample_set` leaves its loop. -/
inductive LoopExit where
  | out
  | checkSaved (sset : CheckedSet) (err : Int)

/-- The loop of `staticchk_sample_set`.  It divides by the number of states, and `none` is also a
    loop that has not ended after these passes. -/
def staticchkLoop (sset : CheckedSet) (err : Int) : List LoopPass → Option LoopExit
  | [] => none
  | p :: ps =>
    if sset.set.count = 0 then none
    else if sampleSetStuck sset.set then
      some (.checkSaved (sset.setFlag sampleSfDeadlk) err)
    else if !sampleCanRun sset.set p.idx then staticchkLoop sset err ps
    else if p.err = -1 then some .out
    else if p.done then some (.checkSaved (sset.after p) p.err)
    else if p.flag ≠ 0 then some (.checkSaved (sset.after p) p.err)
    else staticchkLoop (sset.after p) p.err ps

/-- The saved sets of `struct src`, with the sets as they were when they were saved, which the
    code does not keep. -/
structure SampleSrc where
  sampleSetHead : List CheckedSet
  sampleSetCurid : Nat
  saved : List CheckedSet

/-- `save_sample_set`: the new set is cleared, and only the states are copied into it. -/
def saveCheckedSet (sset : CheckedSet) : CheckedSet :=
  { sampleSetAlloc sset.set.count with set := saveSampleSet sset.set }

/-- A finished set is not saved yet and is valid. -/
def isNew (src : SampleSrc) (set : SampleSet) : Bool :=
  !sampleSetExists (src.sampleSetHead.map CheckedSet.set) set && sampleSetValidate set = 0

/-- `staticchk_sample_set` from `check_saved` on, and what it returns. -/
def staticchkSampleSet (src : SampleSrc) : LoopExit → SampleSrc × Int
  | .out => (src, -1)
  | .checkSaved sset err =>
    if isNew src sset.set then
      ({ sampleSetHead := src.sampleSetHead ++ [saveCheckedSet sset]
         sampleSetCurid := (sset.id + 1) % 2 ^ 64
         saved := src.saved ++ [sset] }, err)
    else (src, err)

/-- `_do_staticchk`.  A negative number of threads asks for more memory than there is. -/
def doStaticchk (src : SampleSrc) (threads : Int) (ps : List LoopPass) :
    Option (SampleSrc × Bool) :=
  if threads < 0 then none
  else
    let sset := { sampleSetAlloc threads.toNat with
      id := src.sampleSetCurid
      staticchkMode := .full }
    if sampleSetSelectEntries sset.set = -1 then some (src, false)
    else (staticchkLoop sset 0 ps).map fun e =>
      let (src, err) := staticchkSampleSet src e
      (src, err = 1)

/-- `staticchk_quick_single_func` for a function that was found. -/
def staticchkQuickSingleFunc (src : SampleSrc) (ps : List LoopPass) : Option SampleSrc :=
  let sset := { sampleSetAlloc 1 with staticchkMode := .quick }
  (staticchkLoop sset 0 ps).map fun e => (staticchkSampleSet src e).1

/-! ## The two commands -/

/-- The loop of `staticchk_cb`, with the number of sets that were saved before it. -/
structure StaticchkCb where
  threads : Int
  howManySset : Nat
  numSaved : Nat
  before : Nat

/-- The checker, with what the code does not keep: for each `_do_staticchk` what it returned and
    whether it appended a set, and for each `staticchk` that stopped how many sets were asked for
    and how many were saved. -/
structure StaticchkState where
  src : SampleSrc
  cb : Option StaticchkCb
  returned : List (Bool × Bool)
  stopped : List (Nat × Nat)

inductive StaticchkEvent where
  | staticchk (threads : Int) (howManySset : Nat)
  | doStaticchk (ps : List LoopPass)
  | quick (found : Bool) (ps : List LoopPass)

/-- The counter after a run. -/
def StaticchkCb.count (cb : StaticchkCb) (saved : Bool) : StaticchkCb :=
  if saved then { cb with numSaved := cb.numSaved + 1 } else cb

/-- A run inside the loop of `staticchk_cb`. -/
def staticchkCbNext (s : StaticchkState) (cb : StaticchkCb) (src : SampleSrc) (saved : Bool) :
    StaticchkState :=
  let cb := cb.count saved
  let stop := cb.howManySset ≠ 0 ∧ cb.howManySset = cb.numSaved
  { src
    cb := if stop then none else some cb
    returned := (saved, decide (s.src.sampleSetHead.length < src.sampleSetHead.length)) ::
      s.returned
    stopped := if stop then (cb.howManySset, src.sampleSetHead.length - cb.before) :: s.stopped
      else s.stopped }

/-- One command is worked on at a time; a command starts when no other is running. -/
def checkerStep (s : StaticchkState) : StaticchkEvent → Option StaticchkState
  | .staticchk threads howManySset =>
    match s.cb with
    | some _ => none
    | none => some { s with cb := some ⟨threads, howManySset, 0, s.src.sampleSetHead.length⟩ }
  | .doStaticchk ps =>
    match s.cb with
    | none => none
    | some cb => (doStaticchk s.src cb.threads ps).map fun (src, saved) =>
        staticchkCbNext s cb src saved
  | .quick found ps =>
    match s.cb with
    | some _ => none
    | none =>
      if found then (staticchkQuickSingleFunc s.src ps).map fun src => { s with src }
      else some s

/-- An empty `src`. -/
def staticchkInit : StaticchkState := ⟨⟨[], 0, []⟩, none, [], []⟩

/-! ## A log of the saved sets -/

/-- The `k`-th saved set tells what the set was when it was saved. -/
structure LogEntry (k : Nat) (saved sset : CheckedSet) : Prop where
  id : saved.id = k
  flag : saved.flag = sset.flag
  staticchkMode : saved.staticchkMode = sset.staticchkMode
  count : saved.set.count = sset.set.count
  states : ∀ i j, i.val = j.val → (saved.set.samples i).cpList = (sset.set.samples j).cpList ∧
    (saved.set.samples i).entries = (sset.set.samples j).entries

/-- The saved list is a faithful log of the sets that were saved. -/
structure SavedLog (src : SampleSrc) : Prop where
  curid : src.sampleSetCurid = src.sampleSetHead.length
  length : src.saved.length = src.sampleSetHead.length
  entry : ∀ k saved sset, src.sampleSetHead[k]? = some saved → src.saved[k]? = some sset →
    LogEntry k saved sset

/-- The saved list is a faithful log, and the checker counts what it saves. -/
structure LogRight (s : StaticchkState) : Prop where
  log : SavedLog s.src
  returned : ∀ r ∈ s.returned, r.1 = r.2
  counted : ∀ cb ∈ s.cb, s.src.sampleSetHead.length = cb.before + cb.numSaved
  stopped : ∀ n ∈ s.stopped, n.1 = n.2

/-- The pass that ends a run. -/
def lastPass (ps : List LoopPass) : Option LoopPass :=
  ps.find? fun p => p.err = -1 || p.done || p.flag ≠ 0

/-- The set with the states that a pass leaves. -/
def LoopPass.set (p : LoopPass) (count : Nat) : SampleSet :=
  ⟨count % 256, fun i => p.samples i, Nat.mod_lt _ (by decide)⟩

/-- A full run: its last `dec_next` returns 1 exactly if the set is new, and a new set is the
    first one and has no issue.  A run that an error stops does not matter. -/
def FullFaithful (src : SampleSrc) (threads : Nat) (ps : List LoopPass) : Prop :=
  ∀ p ∈ lastPass ps, p.err ≠ -1 →
    (p.err = 1 ↔ isNew src (p.set threads) = true) ∧
    (isNew src (p.set threads) = true → src.sampleSetHead = [] ∧ p.flag = 0)

/-- A quick run: its set is saved already. -/
def QuickFaithful (src : SampleSrc) (ps : List LoopPass) : Prop :=
  ∀ p ∈ lastPass ps, p.err ≠ -1 → isNew src (p.set 1) = false

/-- The guard of a step. -/
def RunFaithful (s : StaticchkState) : StaticchkEvent → Prop
  | .staticchk .. => True
  | .doStaticchk ps => ∀ cb ∈ s.cb, 0 ≤ cb.threads → cb.threads.toNat % 256 ≠ 0 →
      FullFaithful s.src cb.threads.toNat ps
  | .quick found ps => s.cb = none → found = true → QuickFaithful s.src ps

/-! ## How a run ends -/

theorem sampleSetStuck_eq {set : SampleSet} (h : set.count ≠ 0) : sampleSetStuck set = false := by
  obtain ⟨n, hn⟩ := Nat.exists_eq_succ_of_ne_zero h
  simp [sampleSetStuck, sampleCanRun, hn, List.range_succ]

/-- **A run ends with its first pass that fails, is done or leaves an issue.** -/
theorem staticchkLoop_eq {sset : CheckedSet} (h : sset.set.count ≠ 0) (err : Int)
    (ps : List LoopPass) :
    staticchkLoop sset err ps = (lastPass ps).map fun p =>
      if p.err = -1 then .out else .checkSaved (sset.after p) p.err := by
  induction ps generalizing sset err with
  | nil => rfl
  | cons p ps ih =>
    have hafter : (sset.after p).set.count ≠ 0 := h
    have hrest := ih hafter p.err
    unfold staticchkLoop lastPass
    simp only [h, if_false, sampleSetStuck_eq h, sampleCanRun, Bool.not_true, Bool.false_eq_true,
      List.find?_cons]
    by_cases herr : p.err = -1
    · simp [herr]
    by_cases hdone : p.done = true
    · simp [herr, hdone]
    by_cases hflag : p.flag = 0
    · simp only [herr, hdone, hflag, if_false, ne_eq, not_true_eq_false, decide_false,
        Bool.or_false]
      exact hrest
    · simp [herr, hdone, hflag]

theorem staticchkLoop_zero {sset : CheckedSet} (h : sset.set.count = 0) (err : Int)
    (ps : List LoopPass) : staticchkLoop sset err ps = none := by
  cases ps with
  | nil => rfl
  | cons p ps => simp [staticchkLoop, h]

variable {s s' : StaticchkState} {src src' : SampleSrc} {ps : List LoopPass}

/-- What a run leaves when its loop ends with the pass `p`. -/
def runEnd (src : SampleSrc) (sset : CheckedSet) (p : LoopPass) : SampleSrc × Int :=
  staticchkSampleSet src (if p.err = -1 then .out else .checkSaved (sset.after p) p.err)

/-- The set a full run starts with. -/
def fullSet (src : SampleSrc) (threads : Nat) : CheckedSet :=
  { sampleSetAlloc threads with id := src.sampleSetCurid, staticchkMode := .full }

/-- The set a quick run starts with. -/
def quickSet : CheckedSet := { sampleSetAlloc 1 with staticchkMode := .quick }

theorem sampleSetSelectEntries_ne (set : SampleSet) : sampleSetSelectEntries set ≠ -1 := by
  simp [sampleSetSelectEntries]

theorem doStaticchk_eq {threads : Int} (hpos : 0 ≤ threads) (hcount : threads.toNat % 256 ≠ 0) :
    doStaticchk src threads ps = (lastPass ps).map fun p =>
      ((runEnd src (fullSet src threads.toNat) p).1,
        decide ((runEnd src (fullSet src threads.toNat) p).2 = 1)) := by
  unfold doStaticchk
  simp only [if_neg (Int.not_lt.mpr hpos), if_neg (sampleSetSelectEntries_ne _)]
  rw [staticchkLoop_eq hcount, Option.map_map]
  rfl

theorem doStaticchk_none {threads : Int} (h : ¬ (0 ≤ threads ∧ threads.toNat % 256 ≠ 0)) :
    doStaticchk src threads ps = none := by
  unfold doStaticchk
  by_cases hneg : threads < 0
  · simp only [hneg, if_true]
  · have hcount : threads.toNat % 256 = 0 := by
      by_contra hne
      exact h ⟨by omega, hne⟩
    simp only [hneg, if_false, if_neg (sampleSetSelectEntries_ne _)]
    rw [staticchkLoop_zero hcount]
    rfl

theorem staticchkQuickSingleFunc_eq :
    staticchkQuickSingleFunc src ps = (lastPass ps).map fun p => (runEnd src quickSet p).1 := by
  unfold staticchkQuickSingleFunc
  have hcount : quickSet.set.count ≠ 0 := by decide
  rw [show ({ sampleSetAlloc 1 with staticchkMode := .quick } : CheckedSet) = quickSet from rfl]
  simp only
  rw [staticchkLoop_eq hcount, Option.map_map]
  rfl

/-! ## What a run saves -/

variable {sset : CheckedSet} {p : LoopPass}

theorem runEnd_err (h : p.err = -1) : runEnd src sset p = (src, -1) := by
  simp [runEnd, h, staticchkSampleSet]

theorem runEnd_old (h : p.err ≠ -1) (hold : isNew src (sset.after p).set = false) :
    runEnd src sset p = (src, p.err) := by
  simp [runEnd, h, staticchkSampleSet, hold]

theorem runEnd_new (h : p.err ≠ -1) (hnew : isNew src (sset.after p).set = true) :
    runEnd src sset p =
      ({ sampleSetHead := src.sampleSetHead ++ [saveCheckedSet (sset.after p)]
         sampleSetCurid := (sset.id + 1) % 2 ^ 64
         saved := src.saved ++ [sset.after p] }, p.err) := by
  simp only [runEnd, if_neg h, staticchkSampleSet, hnew, if_true]
  rfl

/-- What is saved of a set is right for the first set, without issues, of a full run. -/
theorem logEntry_iff (k : Nat) (sset : CheckedSet) :
    LogEntry k (saveCheckedSet sset) sset ↔
      k = 0 ∧ sset.flag = 0 ∧ sset.staticchkMode = .full := by
  constructor
  · rintro ⟨hid, hflag, hmode, -, -⟩
    exact ⟨hid.symm, hflag.symm, hmode.symm⟩
  · rintro ⟨rfl, hflag, hmode⟩
    refine ⟨rfl, hflag.symm, hmode.symm, rfl, fun i j hij => ?_⟩
    obtain rfl := Fin.ext hij
    exact ⟨rfl, rfl⟩

/-- A log with one more set is right about that set. -/
theorem SavedLog.last {src : SampleSrc} {saved sset : CheckedSet} {id : Nat}
    (hlen : src.saved.length = src.sampleSetHead.length)
    (h : SavedLog ⟨src.sampleSetHead ++ [saved], id, src.saved ++ [sset]⟩) :
    LogEntry src.sampleSetHead.length saved sset := by
  apply h.entry
  · simp
  · simp [← hlen]

/-- **A full run keeps the log exactly when it saves nothing, or the first set and that without
    issues.** -/
theorem fullEnd_log (hi : SavedLog src) {threads : Nat} (h : p.err ≠ -1) :
    SavedLog (runEnd src (fullSet src threads) p).1 ↔
      (isNew src (p.set threads) = true → src.sampleSetHead = [] ∧ p.flag = 0) := by
  by_cases hnew : isNew src (p.set threads) = true
  · rw [runEnd_new h hnew]
    simp only [hnew, forall_const]
    constructor
    · intro hlog
      obtain ⟨hk, hflag, -⟩ := (logEntry_iff _ _).mp (hlog.last hi.length)
      exact ⟨List.length_eq_zero_iff.mp hk, hflag⟩
    · rintro ⟨hhead, hflag⟩
      have hsaved : src.saved = [] := by
        apply List.length_eq_zero_iff.mp
        rw [hi.length, hhead]
        rfl
      have hcurid : src.sampleSetCurid = 0 := by
        rw [hi.curid, hhead]
        rfl
      refine ⟨?_, ?_, ?_⟩
      · show (src.sampleSetCurid + 1) % 2 ^ 64 = _
        rw [hcurid, hhead]
        rfl
      · simp [hi.length]
      · intro k saved sset hk hs
        rw [hhead] at hk
        rw [hsaved] at hs
        cases k with
        | succ k => cases hk
        | zero =>
          cases hk
          cases hs
          exact (logEntry_iff _ _).mpr ⟨rfl, hflag, rfl⟩
  · have hold : isNew src (p.set threads) = false := by simpa using hnew
    rw [runEnd_old h hold]
    simp [hold, hi]

/-- **A quick run keeps the log exactly when it saves nothing.** -/
theorem quickEnd_log (hi : SavedLog src) (h : p.err ≠ -1) :
    SavedLog (runEnd src quickSet p).1 ↔ isNew src (p.set 1) = false := by
  by_cases hnew : isNew src (p.set 1) = true
  · rw [runEnd_new h hnew]
    simp only [hnew, Bool.true_eq_false, iff_false]
    intro hlog
    obtain ⟨-, -, hmode⟩ := (logEntry_iff _ _).mp (hlog.last hi.length)
    cases hmode
  · have hold : isNew src (p.set 1) = false := by simpa using hnew
    rw [runEnd_old h hold]
    simp [hold, hi]

/-- A run appends one set if the set is new, else none. -/
theorem runEnd_length (h : p.err ≠ -1) : (runEnd src sset p).1.sampleSetHead.length =
    src.sampleSetHead.length + if isNew src (sset.after p).set then 1 else 0 := by
  by_cases hnew : isNew src (sset.after p).set = true
  · rw [runEnd_new h hnew]
    simp [hnew]
  · have hold : isNew src (sset.after p).set = false := by simpa using hnew
    rw [runEnd_old h hold]
    simp [hold]

theorem runEnd_snd (h : p.err ≠ -1) : (runEnd src sset p).2 = p.err := by
  by_cases hnew : isNew src (sset.after p).set = true
  · rw [runEnd_new h hnew]
  · rw [runEnd_old h (by simpa using hnew)]

/-! ## What a step keeps -/

/-- **The loop of `staticchk_cb` counts right exactly when the run says whether it saved.** -/
theorem staticchkCbNext_right (hi : LogRight s) {cb : StaticchkCb} (hcb : s.cb = some cb)
    {saved : Bool} {k : Nat} (hk : k ≤ 1)
    (hlen : src.sampleSetHead.length = s.src.sampleSetHead.length + k) :
    LogRight (staticchkCbNext s cb src saved) ↔ SavedLog src ∧ (saved = true ↔ k = 1) := by
  have happend : decide (s.src.sampleSetHead.length < src.sampleSetHead.length) =
      decide (k = 1) := by
    rw [decide_eq_decide]
    omega
  have hcount := hi.counted cb hcb
  constructor
  · intro hr
    refine ⟨hr.log, ?_⟩
    have hret := hr.returned _ List.mem_cons_self
    rw [happend] at hret
    simp only at hret
    rw [hret, decide_eq_true_iff]
  · rintro ⟨hlog, hsaved⟩
    have hnum : src.sampleSetHead.length = cb.before + (cb.count saved).numSaved := by
      unfold StaticchkCb.count
      by_cases hs : saved = true
      · have := hsaved.mp hs
        simp only [hs, if_true]
        omega
      · have : k ≠ 1 := fun hk1 => hs (hsaved.mpr hk1)
        simp only [hs, Bool.false_eq_true, if_false]
        omega
    have hbefore : (cb.count saved).before = cb.before := by
      unfold StaticchkCb.count
      split <;> rfl
    refine ⟨hlog, ?_, ?_, ?_⟩
    · intro r hr
      obtain rfl | hr := List.mem_cons.mp hr
      · rw [happend]
        simp only
        rw [Bool.eq_iff_iff, decide_eq_true_iff]
        exact hsaved
      · exact hi.returned r hr
    · intro cb' hcb'
      simp only [staticchkCbNext, Option.mem_def] at hcb'
      split at hcb'
      · cases hcb'
      · cases hcb'
        rw [hbefore]
        exact hnum
    · intro n hn
      simp only [staticchkCbNext] at hn
      split at hn
      · rename_i hstop
        obtain rfl | hn := List.mem_cons.mp hn
        · simp only
          rw [hbefore, hnum, hstop.2]
          omega
        · exact hi.stopped n hn
      · exact hi.stopped n hn

/-- A run of `_do_staticchk`. -/
theorem fullRun_right (hi : LogRight s) {ps : List LoopPass}
    (h : checkerStep s (.doStaticchk ps) = some s') :
    LogRight s' ↔ RunFaithful s (.doStaticchk ps) := by
  simp only [checkerStep] at h
  split at h
  · cases h
  rename_i cb hcb
  have hok : 0 ≤ cb.threads ∧ cb.threads.toNat % 256 ≠ 0 := by
    by_contra hno
    rw [doStaticchk_none hno] at h
    cases h
  rw [doStaticchk_eq hok.1 hok.2] at h
  cases hlast : lastPass ps with
  | none => simp [hlast] at h
  | some p =>
    simp only [hlast, Option.map_some, Option.some.injEq] at h
    subst h
    have hguard : RunFaithful s (.doStaticchk ps) ↔ (p.err ≠ -1 →
        (p.err = 1 ↔ isNew s.src (p.set cb.threads.toNat) = true) ∧
        (isNew s.src (p.set cb.threads.toNat) = true →
          s.src.sampleSetHead = [] ∧ p.flag = 0)) := by
      simp only [RunFaithful, FullFaithful, hcb, hlast, Option.mem_def, Option.some.injEq]
      constructor
      · exact fun hg => hg cb rfl hok.1 hok.2 p rfl
      · rintro hg _ rfl - - _ rfl
        exact hg
    rw [hguard]
    by_cases herr : p.err = -1
    · rw [runEnd_err herr, staticchkCbNext_right hi hcb (Nat.zero_le 1) rfl]
      simp [herr, hi.log]
    · rw [staticchkCbNext_right hi hcb (by split <;> omega) (runEnd_length herr),
        fullEnd_log hi.log herr, runEnd_snd herr]
      have hset : ((fullSet s.src cb.threads.toNat).after p).set = p.set cb.threads.toNat := rfl
      rw [hset]
      by_cases hnew : isNew s.src (p.set cb.threads.toNat) = true
      · simp [hnew, herr, and_comm]
      · simp [hnew, herr]

/-- A run of `staticchk_quick`. -/
theorem quickRun_right (hi : LogRight s) {found : Bool} {ps : List LoopPass}
    (h : checkerStep s (.quick found ps) = some s') :
    LogRight s' ↔ RunFaithful s (.quick found ps) := by
  simp only [checkerStep] at h
  split at h
  · cases h
  rename_i hcb
  split at h
  · rename_i hfound
    rw [staticchkQuickSingleFunc_eq] at h
    cases hlast : lastPass ps with
    | none => simp [hlast] at h
    | some p =>
      simp only [hlast, Option.map_some, Option.some.injEq] at h
      subst h
      have hguard : RunFaithful s (.quick found ps) ↔
          (p.err ≠ -1 → isNew s.src (p.set 1) = false) := by
        simp [RunFaithful, QuickFaithful, hcb, hfound, hlast]
      have hlog : LogRight { s with src := (runEnd s.src quickSet p).1 } ↔
          SavedLog (runEnd s.src quickSet p).1 :=
        ⟨LogRight.log, fun hl => ⟨hl, hi.returned, by simp [hcb], hi.stopped⟩⟩
      rw [hguard, hlog]
      by_cases herr : p.err = -1
      · rw [runEnd_err herr]
        simp [herr, hi.log]
      · rw [quickEnd_log hi.log herr]
        simp [herr]
  · rename_i hfound
    cases h
    exact ⟨fun _ _ hf => absurd hf hfound, fun _ => hi⟩

/-- **What a step needs to keep the log right.** -/
theorem checkerStep_right (hi : LogRight s) {e : StaticchkEvent} (h : checkerStep s e = some s') :
    LogRight s' ↔ RunFaithful s e := by
  cases e with
  | staticchk threads howManySset =>
    simp only [checkerStep] at h
    split at h
    · cases h
    · cases h
      refine ⟨fun _ => trivial, fun _ => ⟨hi.log, hi.returned, ?_, hi.stopped⟩⟩
      intro cb hcb
      cases hcb
      rfl
  | doStaticchk ps => exact fullRun_right hi h
  | quick found ps => exact quickRun_right hi h

/-- A step that does not happen meets the guard. -/
theorem runFaithful_of_none {e : StaticchkEvent} (h : checkerStep s e = none) :
    RunFaithful s e := by
  cases e with
  | staticchk threads howManySset => exact trivial
  | doStaticchk ps =>
    intro cb hcb hpos hcount p hp
    simp only [checkerStep, Option.mem_def.mp hcb, doStaticchk_eq hpos hcount,
      Option.mem_def.mp hp] at h
    cases h
  | quick found ps =>
    intro hcb hfound p hp
    simp only [checkerStep, hcb, hfound, if_true, staticchkQuickSingleFunc_eq,
      Option.mem_def.mp hp] at h
    cases h

theorem logRight_init : LogRight staticchkInit := by
  refine ⟨⟨rfl, rfl, fun k saved sset h => ?_⟩, ?_, ?_, ?_⟩
  · cases h
  · intro r h
    cases h
  · intro cb h
    cases h
  · intro n h
    cases h

/-- **Over every order of full and quick runs the saved list is a faithful log, and the checker
    counts what it saves, exactly when each full run returns 1 for a new set only, a new set is
    the first one and has no issue, and no quick run finds a new set.** -/
theorem saves_exact (es : List StaticchkEvent) :
    Visits checkerStep LogRight staticchkInit es ↔
      Along checkerStep RunFaithful staticchkInit es := by
  have hstep : ∀ s e s', LogRight s → RunFaithful s e → checkerStep s e = some s' → LogRight s' :=
    fun _ _ _ hi hg h => (checkerStep_right hi h).mpr hg
  apply visits_iff_along hstep
  · exact fun _ hi => hi
  · intro s e hi hng
    cases h : checkerStep s e with
    | none => exact absurd (runFaithful_of_none h) hng
    | some s' => exact ⟨s', rfl, fun hr => hng ((checkerStep_right hi h).mp hr)⟩
  · exact logRight_init

/-- The last pass of a run that found nothing. -/
def donePass : LoopPass := ⟨0, 0, 0, fun _ => sampleStateAlloc, true⟩

/-- The set of a quick run is saved as one of a full run. -/
theorem quick_saved_as_full :
    ¬ Visits checkerStep LogRight staticchkInit [.quick true [donePass]] := by
  rintro ⟨-, h⟩
  have hlog := (h _ rfl).head.log
  have hentry := hlog.entry 0 _ _ rfl rfl
  cases hentry.staticchkMode

end Srcinv.Hacking
