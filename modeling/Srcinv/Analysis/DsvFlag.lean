import Mathlib.Tactic.Positivity
import Mathlib.Tactic.Ring
import Srcinv.Lib.Run

/-!
# The flag of a value (`check_and_set_dsv_flag`, `include/si_helper.h`)

A value has four bits and a counter that tell what was done with it.  An action is checked against
them, and noted in them when the check finds nothing.

* `dsvFlag_exact` — over every sequence of actions the flag tells the life of the value exactly when
  the value is not freed before it was written, not allocated again once it is freed, and has no
  more references than the counter can count.
* `freed_not_allocated_again` — `freed` is never cleared.
-/

namespace Srcinv.Analysis

open Srcinv.Lib

/-! ## The flag -/

/-- `enum dsv_flag_action`. -/
inductive DsvFlagAction where
  | read
  | write
  | allocated
  | freed
  | incref
  | decref
  deriving DecidableEq, Repr

/-- What `check_dsv_flag` returns of `enum sample_set_flag`. -/
inductive SampleSetFlag where
  | ok
  | memlk
  | uaf
  | uninit
  | decerr
  deriving DecidableEq, Repr

/-- `struct dsv_flag`. -/
structure DsvFlag where
  refcount : Int
  allocated : Bool
  freed : Bool
  init : Bool
  used : Bool
  deriving DecidableEq, Repr

/-- A flag of zeros. -/
def DsvFlag.zero : DsvFlag := ⟨0, false, false, false, false⟩

/-- `check_dsv_flag` -/
def checkDsvFlag (flag : DsvFlag) : DsvFlagAction → SampleSetFlag
  | .read => if !flag.init then .uninit else if flag.freed then .uaf else .ok
  | .write => if flag.freed then .uaf else .ok
  | .allocated => .ok
  | .freed => if flag.freed then .uaf else .ok
  | .incref => if flag.freed then .uaf else .ok
  | .decref =>
    if flag.refcount = 0 then .decerr
    else if flag.allocated && !flag.freed && flag.refcount = 1 then .memlk
    else .ok

/-- `set_dsv_flag`.  An `atomic_t` has `w` bits and a sign. -/
def setDsvFlag (w : Nat) (flag : DsvFlag) : DsvFlagAction → DsvFlag
  | .read => { flag with used := true }
  | .write => { flag with init := true, used := true }
  | .allocated => { flag with allocated := true }
  | .freed => { flag with freed := true }
  | .incref => { flag with refcount := (flag.refcount + 1).bmod (2 ^ (w + 1)) }
  | .decref => { flag with refcount := (flag.refcount - 1).bmod (2 ^ (w + 1)) }

/-- `check_and_set_dsv_flag` -/
def checkAndSetDsvFlag (w : Nat) (flag : DsvFlag) (action : DsvFlagAction) :
    DsvFlag × SampleSetFlag :=
  match checkDsvFlag flag action with
  | .ok => (setDsvFlag w flag action, .ok)
  | ret => (flag, ret)

/-! ## The life of a value -/

/-- A value with its flag.  `log` is not in the code: it has the actions that were accepted, the
    last one first. -/
structure FlaggedVal where
  flag : DsvFlag
  log : List DsvFlagAction

/-- A new value. -/
def FlaggedVal.new : FlaggedVal := ⟨.zero, []⟩

def flagStep (w : Nat) (v : FlaggedVal) (action : DsvFlagAction) : Option FlaggedVal :=
  match checkAndSetDsvFlag w v.flag action with
  | (flag, .ok) => some ⟨flag, action :: v.log⟩
  | (flag, _) => some ⟨flag, v.log⟩

/-- The value was freed, and was not allocated again. -/
def isFreed : List DsvFlagAction → Bool
  | [] => false
  | .freed :: _ => true
  | .allocated :: _ => false
  | _ :: log => isFreed log

/-- **What the flag must tell**, of what was accepted so far. -/
structure FlagRight (v : FlaggedVal) : Prop where
  counter : 0 ≤ v.flag.refcount ∧
    v.flag.refcount = (v.log.count .incref : Int) - v.log.count .decref
  leak : .allocated ∈ v.log → isFreed v.log = false → v.flag.refcount = 1 →
    checkDsvFlag v.flag .decref = .memlk
  freed : isFreed v.log = true → ∀ action ∈ [.read, .write, .incref, .freed],
    checkDsvFlag v.flag action = .uaf
  alive : isFreed v.log = false → ∀ action ∈ [.write, .incref, .freed],
    checkDsvFlag v.flag action = .ok

/-- **What the caller does**: no value is allocated again once it is freed, none is freed that was
    not written, and no reference is added that the counter cannot count. -/
def LifeKept (w : Nat) (v : FlaggedVal) : DsvFlagAction → Prop
  | .allocated => v.flag.freed = false
  | .freed => v.flag.freed = true ∨ v.flag.init = true
  | .incref => v.flag.freed = true ∨ v.flag.refcount + 1 < 2 ^ w
  | _ => True

/-- The flag has what was accepted. -/
structure FlagInv (w : Nat) (v : FlaggedVal) : Prop where
  counter : v.flag.refcount = (v.log.count .incref : Int) - v.log.count .decref
  low : 0 ≤ v.flag.refcount
  high : v.flag.refcount < 2 ^ w
  allocated : .allocated ∈ v.log → v.flag.allocated = true
  freed : v.flag.freed = isFreed v.log
  written : v.flag.freed = true → v.flag.init = true

variable {w : Nat} {v v' : FlaggedVal}

theorem FlagInv.right (hi : FlagInv w v) : FlagRight v := by
  refine ⟨⟨hi.low, hi.counter⟩, fun halloc hlog hone => ?_, fun hlog action haction => ?_,
    fun hlog action haction => ?_⟩
  · have hfreed : v.flag.freed = false := hi.freed.trans hlog
    simp [checkDsvFlag, hone, hi.allocated halloc, hfreed]
  · have hfreed : v.flag.freed = true := hi.freed.trans hlog
    have hinit := hi.written hfreed
    simp only [List.mem_cons, List.not_mem_nil, or_false] at haction
    rcases haction with rfl | rfl | rfl | rfl <;> simp [checkDsvFlag, hfreed, hinit]
  · have hfreed : v.flag.freed = false := hi.freed.trans hlog
    simp only [List.mem_cons, List.not_mem_nil, or_false] at haction
    rcases haction with rfl | rfl | rfl <;> simp [checkDsvFlag, hfreed]

/-- An action is accepted and noted, or changes nothing. -/
theorem flagStep_cases {action : DsvFlagAction} (h : flagStep w v action = some v') :
    (checkDsvFlag v.flag action = .ok ∧ v' = ⟨setDsvFlag w v.flag action, action :: v.log⟩) ∨
      v' = v := by
  unfold flagStep checkAndSetDsvFlag at h
  cases hcheck : checkDsvFlag v.flag action with
  | ok =>
    simp only [hcheck, Option.some.injEq] at h
    exact Or.inl ⟨rfl, h.symm⟩
  | _ =>
    simp only [hcheck, Option.some.injEq] at h
    exact Or.inr h.symm

theorem flagStep_accepted {action : DsvFlagAction} (h : checkDsvFlag v.flag action = .ok) :
    flagStep w v action = some ⟨setDsvFlag w v.flag action, action :: v.log⟩ := by
  unfold flagStep checkAndSetDsvFlag
  rw [h]

/-- In the range of the counter nothing is cut. -/
theorem bmod_of_range {x : Int} (hlo : 0 ≤ x) (hhi : x < 2 ^ w) : x.bmod (2 ^ (w + 1)) = x := by
  have hpow : ((2 ^ (w + 1) : Nat) : Int) = 2 * 2 ^ w := by
    push_cast
    ring
  exact Int.bmod_eq_of_le_mul_two (by omega) (by omega)

theorem flagInv_step {action : DsvFlagAction} (hi : FlagInv w v) (hg : LifeKept w v action)
    (h : flagStep w v action = some v') : FlagInv w v' := by
  obtain ⟨hcheck, rfl⟩ | rfl := flagStep_cases h
  · have hcounter := hi.counter
    have hlow := hi.low
    have hhigh := hi.high
    cases action with
    | read =>
      refine ⟨?_, hi.low, hi.high, fun hmem => ?_, hi.freed, hi.written⟩
      · simpa [setDsvFlag] using hi.counter
      · exact hi.allocated (by simpa using hmem)
    | write =>
      refine ⟨?_, hi.low, hi.high, fun hmem => ?_, hi.freed, fun _ => rfl⟩
      · simpa [setDsvFlag] using hi.counter
      · exact hi.allocated (by simpa using hmem)
    | allocated =>
      refine ⟨?_, hi.low, hi.high, fun _ => rfl, hg, hi.written⟩
      simpa [setDsvFlag] using hi.counter
    | freed =>
      have hnot : v.flag.freed = false := by
        simpa [checkDsvFlag] using hcheck
      refine ⟨?_, hi.low, hi.high, fun hmem => ?_, rfl, fun _ => ?_⟩
      · simpa [setDsvFlag] using hi.counter
      · exact hi.allocated (by simpa using hmem)
      · exact hg.resolve_left (by rw [hnot]; exact Bool.false_ne_true)
    | incref =>
      have hnot : v.flag.freed = false := by
        simpa [checkDsvFlag] using hcheck
      have hroom := hg.resolve_left (by rw [hnot]; exact Bool.false_ne_true)
      have hset : (setDsvFlag w v.flag .incref).refcount = v.flag.refcount + 1 :=
        bmod_of_range (by omega) hroom
      refine ⟨?_, ?_, ?_, fun hmem => ?_, hi.freed, hi.written⟩
      · simp only [hset, List.count_cons_self, List.count_cons_of_ne
          (show DsvFlagAction.incref ≠ .decref by decide)]
        omega
      · simp only [hset]
        omega
      · simp only [hset]
        exact hroom
      · exact hi.allocated (by simpa using hmem)
    | decref =>
      have hne : v.flag.refcount ≠ 0 := by
        intro hzero
        simp [checkDsvFlag, hzero] at hcheck
      have hset : (setDsvFlag w v.flag .decref).refcount = v.flag.refcount - 1 :=
        bmod_of_range (by omega) (by omega)
      refine ⟨?_, ?_, ?_, fun hmem => ?_, hi.freed, hi.written⟩
      · simp only [hset, List.count_cons_self, List.count_cons_of_ne
          (show DsvFlagAction.decref ≠ .incref by decide)]
        omega
      · simp only [hset]
        omega
      · simp only [hset]
        omega
      · exact hi.allocated (by simpa using hmem)
  · exact hi

/-- A caller that does not keep to it leaves a flag that tells something else. -/
theorem life_breaks {action : DsvFlagAction} (hi : FlagInv w v) (hg : ¬ LifeKept w v action) :
    ∃ v', flagStep w v action = some v' ∧ ¬ FlagRight v' := by
  cases action with
  | read => exact absurd trivial hg
  | write => exact absurd trivial hg
  | decref => exact absurd trivial hg
  | allocated =>
    have hfreed : v.flag.freed = true := by simpa [LifeKept] using hg
    refine ⟨_, flagStep_accepted rfl, fun hr => ?_⟩
    have hwrite := hr.alive rfl .write (by simp)
    simp [checkDsvFlag, setDsvFlag, hfreed] at hwrite
  | freed =>
    obtain ⟨hfreed, hinit⟩ : v.flag.freed = false ∧ v.flag.init = false := by
      simpa [LifeKept] using hg
    refine ⟨_, flagStep_accepted (by simp [checkDsvFlag, hfreed]), fun hr => ?_⟩
    have hread := hr.freed rfl .read (by simp)
    simp [checkDsvFlag, setDsvFlag, hinit] at hread
  | incref =>
    obtain ⟨hfreed, hroom⟩ : v.flag.freed = false ∧ 2 ^ w ≤ v.flag.refcount + 1 := by
      simpa [LifeKept] using hg
    refine ⟨_, flagStep_accepted (by simp [checkDsvFlag, hfreed]), fun hr => ?_⟩
    have hlow : 0 ≤ (v.flag.refcount + 1).bmod (2 ^ (w + 1)) := hr.counter.1
    have hone : v.flag.refcount + 1 = 2 ^ w := by
      have := hi.high
      omega
    have hpow : ((2 ^ (w + 1) : Nat) : Int) = 2 * 2 ^ w := by
      push_cast
      ring
    rw [hone, Int.bmod_def, hpow] at hlow
    have hpos : (0 : Int) < 2 ^ w := by positivity
    rw [Int.emod_eq_of_lt (by omega) (by omega)] at hlow
    split at hlow <;> omega

theorem flagInv_new (w : Nat) : FlagInv w .new := by
  refine ⟨rfl, Int.le_refl 0, ?_, fun hmem => (by cases hmem), rfl, fun h => (by cases h)⟩
  show (0 : Int) < 2 ^ w
  positivity

/-- **Over every sequence of actions the flag tells the life of the value exactly when the value is
    not allocated again once it is freed, not freed before it was written, and has no more
    references than the counter can count.** -/
theorem dsvFlag_exact (w : Nat) (actions : List DsvFlagAction) :
    Visits (flagStep w) FlagRight .new actions ↔ Along (flagStep w) (LifeKept w) .new actions :=
  visits_iff_along (fun _ _ _ hi hg h => flagInv_step hi hg h) (fun _ hi => hi.right)
    (fun _ _ hi hg => life_breaks hi hg) (flagInv_new w)

/-- A value that is written, freed and allocated again does not accept a write. -/
theorem freed_not_allocated_again :
    ¬ Visits (flagStep 31) FlagRight .new [.allocated, .write, .freed, .allocated] := by
  rintro ⟨-, h⟩
  obtain ⟨-, h⟩ := h _ rfl
  obtain ⟨-, h⟩ := h _ rfl
  obtain ⟨-, h⟩ := h _ rfl
  have hwrite := (h _ rfl).alive rfl .write (by simp)
  cases hwrite

end Srcinv.Analysis
