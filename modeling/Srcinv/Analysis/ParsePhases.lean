import Mathlib.Data.List.FinRange
import Srcinv.Analysis.Parse

/-!
# The phases of `parse_resfile` (`analysis/parse.c`)

The main thread walks the sibufs of the resfile and gives each to the first free of eight worker
slots; it sees that a worker has failed only when it takes the slot again.  At the end of a phase
it waits for all workers, and with step 0 it goes on to the next phase.

* `phases_exact` — over every interleaving, a failure is returned and stops the later phases, and
  a return of 0 means that every sibuf went through every phase, exactly when nothing fails before
  the last phase, and whatever fails shows up at a slot that the last phase takes again.
* `last_failure_is_lost` — the failure of the last sibuf is not returned.
-/

namespace Srcinv.Analysis

open Srcinv.Lib

def THREAD_CNT : Nat := 8

/-- `step++`. -/
def nextPhase : Phase → Option Phase
  | .adjust => some .getbase
  | .getbase => some .getdetail
  | .getdetail => some .getstep4
  | .getstep4 => some .getindcfg1
  | .getindcfg1 => some .getindcfg2
  | .getindcfg2 => none

/-- The sibufs of a resfile, by their place in the list. -/
def ofResfile (src : ParseSrc) (rf : Nat) : List Nat :=
  (List.range src.sibufs.length).filter fun i => (src.sibufs[i]?.map ParseBuf.rf) = some rf

/-- `parse_resfile` in a phase.  `pending` are the sibufs its loop has still to visit; `all` is
    `flag`.  The runs of `do_phase` that began, failed, failed in `ops->parse` and succeeded, and
    whether the loop of this phase met a slot whose worker had failed, are histories that the code
    does not keep. -/
structure PhaseRun where
  src : ParseSrc
  rf : Nat
  all : Bool
  phase : Phase
  pending : List Nat
  slots : Fin THREAD_CNT → MtParse
  err : Int
  returned : Option Int
  entered : List (Phase × Nat)
  failed : List (Phase × Nat)
  parseFailed : List (Phase × Nat)
  passed : List (Phase × Nat)
  observed : Bool

/-- `mt_parse_find`. -/
def mtParseFind (slots : Fin THREAD_CNT → MtParse) : Option (Fin THREAD_CNT) :=
  (List.finRange THREAD_CNT).find? fun t => (slots t).inUse = 0

/-- The loop for one sibuf; `none` while it sleeps, or when no sibuf is left.  `pthread_create` is
    called until it returns 0. -/
def dispatch (s : PhaseRun) : Option PhaseRun :=
  match s.pending with
  | [] => none
  | i :: rest =>
    match mtParseFind s.slots with
    | none => none
    | some t =>
      if (s.slots t).ret ≠ 0 then some { s with err := -1, pending := [], observed := true }
      else some { s with
        pending := rest
        slots := Function.update s.slots t ⟨some i, 0, s.phase, 1⟩
        err := 0
        entered := (s.phase, i) :: s.entered }

/-- The slots are cleared and the loop starts over. -/
def clearPhase (s : PhaseRun) (phase : Phase) : PhaseRun :=
  { s with
    phase
    pending := ofResfile s.src s.rf
    slots := fun _ => ⟨none, 0, phase, 0⟩
    observed := false }

/-- A phase begins with its first sibuf, for which slot 0 is free. -/
def startPhase (s : PhaseRun) (phase : Phase) : PhaseRun :=
  (dispatch (clearPhase s phase)).getD (clearPhase s phase)

/-- A worker runs `do_phase`; `perr` is what `ops->parse` returns if it is reached. -/
def finishSlot (ops : List LangOps) (s : PhaseRun) (t : Fin THREAD_CNT) (perr : Int) :
    Option PhaseRun :=
  if (s.slots t).inUse = 0 then none
  else match (s.slots t).buf with
  | none => none
  | some i =>
    match s.src.sibufs[i]? with
    | none => none
    | some b =>
      let (src, slot) := doPhase ops s.src (s.slots t) i b perr
      let bad := slot.ret ≠ 0
      some { s with
        src
        slots := Function.update s.slots t slot
        failed := if bad then (s.phase, i) :: s.failed else s.failed
        parseFailed := if bad ∧ (langOpsFind ops b.fcType).isSome then
          (s.phase, i) :: s.parseFailed else s.parseFailed
        passed := if bad then s.passed else (s.phase, i) :: s.passed }

/-- The loop is left and all workers are done. -/
def PhaseRun.idle (s : PhaseRun) : Bool :=
  s.pending.isEmpty && (List.finRange THREAD_CNT).all fun t => (s.slots t).inUse = 0

/-- The phase that follows. -/
def PhaseRun.next (s : PhaseRun) : Option Phase := if s.all then nextPhase s.phase else none

inductive PhaseEvent where
  | dispatch
  | finish (t : Fin THREAD_CNT) (perr : Int)
  | endPhase

def phaseStep (ops : List LangOps) (s : PhaseRun) (e : PhaseEvent) : Option PhaseRun :=
  if s.returned.isSome then none
  else match e with
  | .dispatch => dispatch s
  | .finish t perr => finishSlot ops s t perr
  | .endPhase =>
    if s.idle then
      match s.next with
      | some phase => some (startPhase s phase)
      | none => some { s with returned := some s.err }
    else none

/-- `parse_resfile` at its first phase; `none` is step 0. -/
def parseResfileSteps (src : ParseSrc) (rf : Nat) (step : Option Phase) : PhaseRun :=
  let phase := step.getD .adjust
  startPhase ⟨src, rf, step.isNone, phase, [], fun _ => ⟨none, 0, phase, 0⟩, 0, none, [], [], [],
    [], false⟩ phase

/-! ## Failures that are returned -/

/-- A failure of `ops->parse` is returned, and with step 0 no sibuf enters a later phase; after a
    return of 0 every sibuf of the resfile has passed every phase that was asked for. -/
structure PhasesRight (s : PhaseRun) : Prop where
  reported : ∀ r ∈ s.returned, s.parseFailed ≠ [] → r ≠ 0
  stops : s.all = true → ∀ x ∈ s.parseFailed, ∀ y ∈ s.entered, y.1.mode ≤ x.1.mode
  complete : s.returned = some 0 → ∀ phase, (s.all = true ∨ phase = s.phase) →
    ∀ i ∈ ofResfile s.src s.rf, (phase, i) ∈ s.passed

/-- The guard of a step.  No parse has failed when a later phase begins; and when the last phase
    ends, a failure has been met at a slot that was taken again. -/
def FailuresMet (s : PhaseRun) : PhaseEvent → Prop
  | .endPhase => s.returned = none → s.idle = true →
      if s.next.isSome then s.parseFailed = [] else s.failed ≠ [] → s.observed = true
  | _ => True

/-! ## The invariant -/

/-- What holds in a phase before its first slot is taken. -/
structure PhaseCore (s : PhaseRun) : Prop where
  entered_le : ∀ x ∈ s.entered, x.1.mode ≤ s.phase.mode
  entered_mine : ∀ x ∈ s.entered, x.2 ∈ ofResfile s.src s.rf
  entered_only : s.all = false → ∀ x ∈ s.entered, x.1 = s.phase
  ran : ∀ x, x ∈ s.failed ∨ x ∈ s.passed → x ∈ s.entered
  apart : ∀ x ∈ s.failed, x ∉ s.passed
  parseFailed_sub : ∀ x ∈ s.parseFailed, x ∈ s.failed
  parseFailed_now : ∀ x ∈ s.parseFailed, x.1 = s.phase
  busy : ∀ t i, (s.slots t).inUse ≠ 0 → (s.slots t).buf = some i →
    (s.phase, i) ∈ s.entered ∧ (s.phase, i) ∉ s.failed ∧ (s.phase, i) ∉ s.passed ∧
      (s.slots t).ret = 0
  busy_inj : ∀ t t' i, (s.slots t).inUse ≠ 0 → (s.slots t').inUse ≠ 0 →
    (s.slots t).buf = some i → (s.slots t').buf = some i → t = t'
  pending_new : ∀ i ∈ s.pending, (s.phase, i) ∉ s.entered ∧ i ∈ ofResfile s.src s.rf
  pending_nodup : s.pending.Nodup
  covered : s.failed = [] → ∀ i ∈ ofResfile s.src s.rf,
    i ∈ s.pending ∨ (∃ t, (s.slots t).inUse ≠ 0 ∧ (s.slots t).buf = some i) ∨
      (s.phase, i) ∈ s.passed
  earlier : s.failed = [] → s.all = true → ∀ phase, phase.mode < s.phase.mode →
    ∀ i ∈ ofResfile s.src s.rf, (phase, i) ∈ s.passed
  slot_failed : ∀ t, (s.slots t).ret ≠ 0 → s.failed ≠ []
  left : s.observed = true → s.pending = []
  none_mine : ofResfile s.src s.rf = [] → s.err = 0

/-- What holds after each step of a phase. -/
structure PhaseInv (s : PhaseRun) : Prop extends PhaseCore s where
  observed_err : s.observed = true ↔ s.err ≠ 0

variable {ops : List LangOps} {s s' : PhaseRun}

theorem nextPhase_mode {p q : Phase} (h : nextPhase p = some q) : q.mode = p.mode + 1 := by
  cases p <;> cases h <;> rfl

theorem mtParseFind_some {slots : Fin THREAD_CNT → MtParse} {t : Fin THREAD_CNT}
    (h : mtParseFind slots = some t) : (slots t).inUse = 0 := by
  simpa using List.find?_some h

/-- What the loop does for one sibuf. -/
theorem dispatch_cases (h : dispatch s = some s') :
    ∃ i rest t, s.pending = i :: rest ∧ (s.slots t).inUse = 0 ∧
      ((s.slots t).ret ≠ 0 ∧ s' = { s with err := -1, pending := [], observed := true } ∨
      s' = { s with
        pending := rest
        slots := Function.update s.slots t ⟨some i, 0, s.phase, 1⟩
        err := 0
        entered := (s.phase, i) :: s.entered }) := by
  unfold dispatch at h
  split at h
  · cases h
  rename_i i rest hpending
  split at h
  · cases h
  rename_i t hfind
  have hfree := mtParseFind_some hfind
  split at h
  · rename_i hret
    cases h
    exact ⟨i, rest, t, hpending, hfree, Or.inl ⟨hret, rfl⟩⟩
  · cases h
    exact ⟨i, rest, t, hpending, hfree, Or.inr rfl⟩

theorem PhaseCore.not_observed (hi : PhaseCore s) {i : Nat} {rest : List Nat}
    (hpending : s.pending = i :: rest) : s.observed ≠ true := fun hobs => by
  rw [hi.left hobs] at hpending
  cases hpending

/-- The failure of the last worker at a slot shows up. -/
theorem PhaseCore.observe (hi : PhaseCore s) {i : Nat} {rest : List Nat} {t : Fin THREAD_CNT}
    (hpending : s.pending = i :: rest) (hret : (s.slots t).ret ≠ 0) :
    PhaseInv { s with err := -1, pending := [], observed := true } where
  toPhaseCore := { hi with
    pending_new := fun j hj => by cases hj
    pending_nodup := List.nodup_nil
    covered := fun hno => absurd hno (hi.slot_failed t hret)
    left := fun _ => rfl
    none_mine := fun hno => by
      have hmine := (hi.pending_new i (by rw [hpending]; exact List.mem_cons_self)).2
      rw [hno] at hmine
      cases hmine }
  observed_err := by simp

/-- The slots that a new worker leaves busy have their own sibufs. -/
theorem PhaseCore.take_inj (hi : PhaseCore s) {i : Nat} {t t₁ t₂ : Fin THREAD_CNT} {j : Nat}
    (hnew : (s.phase, i) ∉ s.entered) {slot : MtParse} (hslot : slot.buf = some i)
    (huse₁ : (Function.update s.slots t slot t₁).inUse ≠ 0)
    (huse₂ : (Function.update s.slots t slot t₂).inUse ≠ 0)
    (hbuf₁ : (Function.update s.slots t slot t₁).buf = some j)
    (hbuf₂ : (Function.update s.slots t slot t₂).buf = some j) : t₁ = t₂ := by
  have hbusy : ∀ t' j, (s.slots t').inUse ≠ 0 → (s.slots t').buf = some j → j ≠ i := by
    rintro t' j huse hbuf rfl
    exact hnew (hi.busy t' j huse hbuf).1
  by_cases ht₁ : t₁ = t
  · by_cases ht₂ : t₂ = t
    · rw [ht₁, ht₂]
    · rw [ht₁, Function.update_self, hslot] at hbuf₁
      rw [Function.update_of_ne ht₂] at huse₂ hbuf₂
      cases hbuf₁
      exact absurd rfl (hbusy t₂ i huse₂ hbuf₂)
  · rw [Function.update_of_ne ht₁] at huse₁ hbuf₁
    by_cases ht₂ : t₂ = t
    · rw [ht₂, Function.update_self, hslot] at hbuf₂
      cases hbuf₂
      exact absurd rfl (hbusy t₁ i huse₁ hbuf₁)
    · rw [Function.update_of_ne ht₂] at huse₂ hbuf₂
      exact hi.busy_inj t₁ t₂ j huse₁ huse₂ hbuf₁ hbuf₂

/-- A free slot gets the next sibuf. -/
theorem PhaseCore.take (hi : PhaseCore s) {i : Nat} {rest : List Nat} {t : Fin THREAD_CNT}
    (hpending : s.pending = i :: rest) (hfree : (s.slots t).inUse = 0) :
    PhaseInv { s with
      pending := rest
      slots := Function.update s.slots t ⟨some i, 0, s.phase, 1⟩
      err := 0
      entered := (s.phase, i) :: s.entered } := by
  have hnotobs := hi.not_observed hpending
  obtain ⟨hnew, hmine⟩ := hi.pending_new i (by rw [hpending]; exact List.mem_cons_self)
  have hnodup := hi.pending_nodup
  rw [hpending, List.nodup_cons] at hnodup
  refine {
    toPhaseCore := { hi with
      entered_le := ?_, entered_mine := ?_, entered_only := ?_, ran := ?_, busy := ?_
      busy_inj := fun t₁ t₂ j => hi.take_inj hnew rfl, pending_new := ?_
      pending_nodup := hnodup.2, covered := ?_, slot_failed := ?_
      left := fun hobs => absurd hobs hnotobs, none_mine := fun _ => rfl }
    observed_err := by simpa using hnotobs }
  · intro x hx
    obtain rfl | hx := List.mem_cons.mp hx
    · exact Nat.le_refl _
    · exact hi.entered_le x hx
  · intro x hx
    obtain rfl | hx := List.mem_cons.mp hx
    · exact hmine
    · exact hi.entered_mine x hx
  · intro hall x hx
    obtain rfl | hx := List.mem_cons.mp hx
    · rfl
    · exact hi.entered_only hall x hx
  · exact fun x hx => List.mem_cons_of_mem _ (hi.ran x hx)
  · intro t' j huse hbuf
    simp only at huse hbuf ⊢
    by_cases ht : t' = t
    · subst ht
      rw [Function.update_self] at hbuf ⊢
      cases hbuf
      exact ⟨List.mem_cons_self, fun hf => hnew (hi.ran _ (Or.inl hf)),
        fun hp => hnew (hi.ran _ (Or.inr hp)), rfl⟩
    · rw [Function.update_of_ne ht] at huse hbuf ⊢
      obtain ⟨hent, hrest⟩ := hi.busy t' j huse hbuf
      exact ⟨List.mem_cons_of_mem _ hent, hrest⟩
  · intro j hj
    have hjmem : j ∈ s.pending := by
      rw [hpending]
      exact List.mem_cons_of_mem i hj
    obtain ⟨hjnew, hjmine⟩ := hi.pending_new j hjmem
    refine ⟨fun hent => ?_, hjmine⟩
    obtain heq | hent := List.mem_cons.mp hent
    · cases heq
      exact hnodup.1 hj
    · exact hjnew hent
  · intro hno j hj
    obtain hjp | ⟨t', huse, hbuf⟩ | hpass := hi.covered hno j hj
    · rw [hpending] at hjp
      obtain rfl | hjp := List.mem_cons.mp hjp
      · exact Or.inr (Or.inl ⟨t, by simp, by simp⟩)
      · exact Or.inl hjp
    · have ht : t' ≠ t := by
        rintro rfl
        exact huse hfree
      refine Or.inr (Or.inl ⟨t', ?_⟩)
      simp only
      rw [Function.update_of_ne ht]
      exact ⟨huse, hbuf⟩
    · exact Or.inr (Or.inr hpass)
  · intro t' hret'
    simp only at hret'
    by_cases ht : t' = t
    · rw [ht, Function.update_self] at hret'
      exact absurd rfl hret'
    · rw [Function.update_of_ne ht] at hret'
      exact hi.slot_failed t' hret'

/-- **The loop for the next sibuf.** -/
theorem PhaseCore.dispatch (hi : PhaseCore s) (h : dispatch s = some s') : PhaseInv s' := by
  obtain ⟨i, rest, t, hpending, hfree, ⟨hret, rfl⟩ | rfl⟩ := dispatch_cases h
  · exact hi.observe hpending hret
  · exact hi.take hpending hfree

/-! ## Workers -/

/-- `parse_sibuf` leaves the resfile of a sibuf alone. -/
theorem parseSibuf_rf (ops : List LangOps) (siType : SiType) (b : ParseBuf) (step : Phase)
    (perr : Int) : (parseSibuf ops siType b step false perr).2.1.rf = b.rf := by
  unfold parseSibuf
  split
  · rfl
  split
  · rfl
  · simp only
    split <;> rfl

/-- **`do_phase` frees its slot, and changes its sibuf only.** -/
theorem doPhase_spec (ops : List LangOps) (src : ParseSrc) (t : MtParse) (i : Nat) (b : ParseBuf)
    (perr : Int) : (doPhase ops src t i b perr).2.inUse = 0 ∧
      ∃ b' : ParseBuf, b'.rf = b.rf ∧
        (doPhase ops src t i b perr).1.sibufs = src.sibufs.set i b' := by
  have hrf := parseSibuf_rf ops src.siType b t.step perr
  unfold doPhase
  simp only
  split
  · exact ⟨rfl, _, hrf, rfl⟩
  · exact ⟨rfl, { (parseSibuf ops src.siType b t.step false perr).2.1 with
      status := t.step.mode % 16 }, hrf, rfl⟩

/-- A change of one sibuf moves no sibuf to another resfile. -/
theorem ofResfile_set {src src' : ParseSrc} {i : Nat} {b b' : ParseBuf}
    (hb : src.sibufs[i]? = some b) (hrf : b'.rf = b.rf) (h : src'.sibufs = src.sibufs.set i b')
    (rf : Nat) : ofResfile src' rf = ofResfile src rf := by
  unfold ofResfile
  rw [h, List.length_set]
  refine List.filter_congr fun j hj => ?_
  by_cases hij : i = j
  · subst hij
    rw [List.getElem?_set_self (List.mem_range.mp hj), hb]
    simp [hrf]
  · rw [List.getElem?_set_ne hij]

/-- What a worker leaves, when it fails and when it succeeds. -/
theorem finishSlot_cases {t : Fin THREAD_CNT} {perr : Int}
    (h : finishSlot ops s t perr = some s') :
    ∃ i src slot, (s.slots t).inUse ≠ 0 ∧ (s.slots t).buf = some i ∧ slot.inUse = 0 ∧
      ofResfile src s.rf = ofResfile s.src s.rf ∧
      ((∃ parseFailed, (parseFailed = s.parseFailed ∨
          parseFailed = (s.phase, i) :: s.parseFailed) ∧
        s' = { s with
          src
          slots := Function.update s.slots t slot
          failed := (s.phase, i) :: s.failed
          parseFailed }) ∨
      slot.ret = 0 ∧ s' = { s with
        src
        slots := Function.update s.slots t slot
        passed := (s.phase, i) :: s.passed }) := by
  unfold finishSlot at h
  split at h
  · cases h
  rename_i huse
  split at h
  · cases h
  rename_i i hbuf
  split at h
  · cases h
  rename_i b hb
  obtain ⟨hfree, b', hrf, hset⟩ := doPhase_spec ops s.src (s.slots t) i b perr
  have hmine := ofResfile_set hb hrf hset s.rf
  generalize doPhase ops s.src (s.slots t) i b perr = out at h hfree hmine
  obtain ⟨src, slot⟩ := out
  refine ⟨i, src, slot, huse, hbuf, hfree, hmine, ?_⟩
  by_cases hbad : slot.ret ≠ 0
  · simp only [hbad, ne_eq, not_false_eq_true, if_true, true_and] at h
    cases h
    refine Or.inl ⟨_, ?_, rfl⟩
    split
    · exact Or.inr rfl
    · exact Or.inl rfl
  · simp only [hbad, if_false, false_and] at h
    cases h
    exact Or.inr ⟨not_not.mp hbad, rfl⟩

/-- The slots that are busy when `t` is free are other ones, with other sibufs. -/
theorem PhaseCore.still_busy (hi : PhaseCore s) {t t' : Fin THREAD_CNT} {slot : MtParse} {i j : Nat}
    (huse : (s.slots t).inUse ≠ 0) (hbuf : (s.slots t).buf = some i) (hfree : slot.inUse = 0)
    (huse' : (Function.update s.slots t slot t').inUse ≠ 0)
    (hbuf' : (Function.update s.slots t slot t').buf = some j) :
    (s.slots t').inUse ≠ 0 ∧ (s.slots t').buf = some j ∧ t' ≠ t ∧ j ≠ i := by
  have ht : t' ≠ t := by
    rintro rfl
    rw [Function.update_self] at huse'
    exact huse' hfree
  rw [Function.update_of_ne ht] at huse' hbuf'
  refine ⟨huse', hbuf', ht, ?_⟩
  rintro rfl
  exact ht (hi.busy_inj t' t j huse' huse hbuf' hbuf)

section Worker

variable {t : Fin THREAD_CNT} {i : Nat} {src : ParseSrc} {slot : MtParse}

/-- A worker that fails. -/
theorem PhaseInv.fail (hi : PhaseInv s) (huse : (s.slots t).inUse ≠ 0)
    (hbuf : (s.slots t).buf = some i) (hfree : slot.inUse = 0)
    (hmine : ofResfile src s.rf = ofResfile s.src s.rf) {parseFailed : List (Phase × Nat)}
    (hpf : parseFailed = s.parseFailed ∨ parseFailed = (s.phase, i) :: s.parseFailed) :
    PhaseInv { s with
      src
      slots := Function.update s.slots t slot
      failed := (s.phase, i) :: s.failed
      parseFailed } := by
  obtain ⟨hent, -, hnotpassed, -⟩ := hi.busy t i huse hbuf
  refine {
    toPhaseCore := {
      entered_le := hi.entered_le
      entered_mine := fun x hx => hmine ▸ hi.entered_mine x hx
      entered_only := hi.entered_only
      earlier := fun hno => by cases hno
      covered := fun hno => by cases hno
      slot_failed := fun _ _ hnil => (by cases hnil)
      left := hi.left
      none_mine := fun hno => hi.none_mine (hmine ▸ hno)
      pending_new := fun j hj => ⟨(hi.pending_new j hj).1, hmine ▸ (hi.pending_new j hj).2⟩
      pending_nodup := hi.pending_nodup
      ran := ?_, apart := ?_, parseFailed_sub := ?_, parseFailed_now := ?_, busy := ?_
      busy_inj := ?_ }
    observed_err := hi.observed_err }
  · intro x hx
    obtain hx | hx := hx
    · obtain rfl | hx := List.mem_cons.mp hx
      · exact hent
      · exact hi.ran x (Or.inl hx)
    · exact hi.ran x (Or.inr hx)
  · intro x hx
    obtain rfl | hx := List.mem_cons.mp hx
    · exact hnotpassed
    · exact hi.apart x hx
  · intro x hx
    obtain rfl | rfl := hpf
    · exact List.mem_cons_of_mem _ (hi.parseFailed_sub x hx)
    · obtain rfl | hx := List.mem_cons.mp hx
      · exact List.mem_cons_self
      · exact List.mem_cons_of_mem _ (hi.parseFailed_sub x hx)
  · intro x hx
    obtain rfl | rfl := hpf
    · exact hi.parseFailed_now x hx
    · obtain rfl | hx := List.mem_cons.mp hx
      · rfl
      · exact hi.parseFailed_now x hx
  · intro t' j huse' hbuf'
    obtain ⟨huse', hbuf', ht, hj⟩ := hi.still_busy huse hbuf hfree huse' hbuf'
    obtain ⟨hent', hnf, hnp, hret⟩ := hi.busy t' j huse' hbuf'
    refine ⟨hent', fun hf => ?_, hnp, ?_⟩
    · obtain heq | hf := List.mem_cons.mp hf
      · exact hj (Prod.mk.inj heq).2
      · exact hnf hf
    · show (Function.update s.slots t slot t').ret = 0
      rw [Function.update_of_ne ht]
      exact hret
  · intro t₁ t₂ j huse₁ huse₂ hbuf₁ hbuf₂
    obtain ⟨huse₁, hbuf₁, -⟩ := hi.still_busy huse hbuf hfree huse₁ hbuf₁
    obtain ⟨huse₂, hbuf₂, -⟩ := hi.still_busy huse hbuf hfree huse₂ hbuf₂
    exact hi.busy_inj t₁ t₂ j huse₁ huse₂ hbuf₁ hbuf₂

/-- A worker that succeeds. -/
theorem PhaseInv.pass (hi : PhaseInv s) (huse : (s.slots t).inUse ≠ 0)
    (hbuf : (s.slots t).buf = some i) (hfree : slot.inUse = 0) (hgood : slot.ret = 0)
    (hmine : ofResfile src s.rf = ofResfile s.src s.rf) :
    PhaseInv { s with
      src
      slots := Function.update s.slots t slot
      passed := (s.phase, i) :: s.passed } := by
  obtain ⟨hent, hnotfailed, -⟩ := hi.busy t i huse hbuf
  refine {
    toPhaseCore := {
      entered_le := hi.entered_le
      entered_mine := fun x hx => hmine ▸ hi.entered_mine x hx
      entered_only := hi.entered_only
      parseFailed_sub := hi.parseFailed_sub
      parseFailed_now := hi.parseFailed_now
      left := hi.left
      none_mine := fun hno => hi.none_mine (hmine ▸ hno)
      pending_new := fun j hj => ⟨(hi.pending_new j hj).1, hmine ▸ (hi.pending_new j hj).2⟩
      pending_nodup := hi.pending_nodup
      ran := ?_, apart := ?_, busy := ?_, busy_inj := ?_, covered := ?_, earlier := ?_
      slot_failed := ?_ }
    observed_err := hi.observed_err }
  · intro x hx
    obtain hx | hx := hx
    · exact hi.ran x (Or.inl hx)
    · obtain rfl | hx := List.mem_cons.mp hx
      · exact hent
      · exact hi.ran x (Or.inr hx)
  · intro x hx hpass
    obtain rfl | hpass := List.mem_cons.mp hpass
    · exact hnotfailed hx
    · exact hi.apart x hx hpass
  · intro t' j huse' hbuf'
    obtain ⟨huse', hbuf', ht, hj⟩ := hi.still_busy huse hbuf hfree huse' hbuf'
    obtain ⟨hent', hnf, hnp, hret⟩ := hi.busy t' j huse' hbuf'
    refine ⟨hent', hnf, fun hp => ?_, ?_⟩
    · obtain heq | hp := List.mem_cons.mp hp
      · exact hj (Prod.mk.inj heq).2
      · exact hnp hp
    · show (Function.update s.slots t slot t').ret = 0
      rw [Function.update_of_ne ht]
      exact hret
  · intro t₁ t₂ j huse₁ huse₂ hbuf₁ hbuf₂
    obtain ⟨huse₁, hbuf₁, -⟩ := hi.still_busy huse hbuf hfree huse₁ hbuf₁
    obtain ⟨huse₂, hbuf₂, -⟩ := hi.still_busy huse hbuf hfree huse₂ hbuf₂
    exact hi.busy_inj t₁ t₂ j huse₁ huse₂ hbuf₁ hbuf₂
  · intro hno j hj
    obtain hp | ⟨t', huse', hbuf'⟩ | hpass := hi.covered hno j (hmine ▸ hj)
    · exact Or.inl hp
    · by_cases ht : t' = t
      · subst ht
        rw [hbuf] at hbuf'
        cases hbuf'
        exact Or.inr (Or.inr List.mem_cons_self)
      · refine Or.inr (Or.inl ⟨t', ?_⟩)
        simp only
        rw [Function.update_of_ne ht]
        exact ⟨huse', hbuf'⟩
    · exact Or.inr (Or.inr (List.mem_cons_of_mem _ hpass))
  · exact fun hno hall phase hlt j hj =>
      List.mem_cons_of_mem _ (hi.earlier hno hall phase hlt j (hmine ▸ hj))
  · intro t' hret
    simp only at hret
    by_cases ht : t' = t
    · rw [ht, Function.update_self] at hret
      exact absurd hgood hret
    · rw [Function.update_of_ne ht] at hret
      exact hi.slot_failed t' hret

end Worker

/-- **A worker that is done.** -/
theorem PhaseInv.finish (hi : PhaseInv s) {t : Fin THREAD_CNT} {perr : Int}
    (h : finishSlot ops s t perr = some s') :
    PhaseInv s' ∧ s'.returned = s.returned := by
  obtain ⟨i, src, slot, huse, hbuf, hfree, hmine, ⟨parseFailed, hpf, rfl⟩ | ⟨hgood, rfl⟩⟩ :=
    finishSlot_cases h
  · exact ⟨hi.fail huse hbuf hfree hmine hpf, rfl⟩
  · exact ⟨hi.pass huse hbuf hfree hgood hmine, rfl⟩

/-! ## A phase begins -/

theorem ofResfile_nodup (src : ParseSrc) (rf : Nat) : (ofResfile src rf).Nodup :=
  List.nodup_range.filter _

theorem idle_spec (h : s.idle = true) : s.pending = [] ∧ ∀ t, (s.slots t).inUse = 0 := by
  unfold PhaseRun.idle at h
  simp only [Bool.and_eq_true, List.isEmpty_iff, List.all_eq_true, decide_eq_true_eq] at h
  exact ⟨h.1, fun t => h.2 t (List.mem_finRange t)⟩

/-- Giving out sibufs keeps what the phases before have left. -/
theorem dispatch_frame (h : dispatch s = some s') :
    s'.returned = s.returned ∧ s'.all = s.all ∧ s'.parseFailed = s.parseFailed := by
  obtain ⟨i, rest, t, -, -, ⟨-, rfl⟩ | rfl⟩ := dispatch_cases h
  · exact ⟨rfl, rfl, rfl⟩
  · exact ⟨rfl, rfl, rfl⟩

theorem startPhase_frame (s : PhaseRun) (p : Phase) : (startPhase s p).returned = s.returned ∧
    (startPhase s p).all = s.all ∧ (startPhase s p).parseFailed = s.parseFailed := by
  unfold startPhase
  cases h : dispatch (clearPhase s p) with
  | none => exact ⟨rfl, rfl, rfl⟩
  | some s' =>
    obtain ⟨hret, hall, hfailed⟩ := dispatch_frame h
    exact ⟨hret, hall, hfailed⟩

/-- The first sibuf of a phase finds slot 0 cleared. -/
theorem dispatch_clearPhase {p : Phase} {i : Nat} {rest : List Nat}
    (h : ofResfile s.src s.rf = i :: rest) :
    ∃ s', dispatch (clearPhase s p) = some s' ∧ s'.entered = (p, i) :: s.entered := by
  have hfind : mtParseFind (clearPhase s p).slots = some ⟨0, by decide⟩ := rfl
  have hpending : (clearPhase s p).pending = i :: rest := h
  unfold dispatch
  rw [hpending]
  simp only
  rw [hfind]
  exact ⟨_, if_neg fun hret => hret rfl, rfl⟩

/-- **A phase that has begun.** -/
theorem PhaseCore.start {p : Phase} (hi : PhaseCore (clearPhase s p)) :
    PhaseInv (startPhase s p) := by
  unfold startPhase
  cases hmine : ofResfile s.src s.rf with
  | nil =>
    have hnone : Analysis.dispatch (clearPhase s p) = none := by
      have hpending : (clearPhase s p).pending = [] := hmine
      unfold Analysis.dispatch
      rw [hpending]
    rw [hnone]
    have herr : (clearPhase s p).err = 0 := hi.none_mine hmine
    refine { toPhaseCore := hi, observed_err := ⟨fun hobs => (by cases hobs), fun hne => ?_⟩ }
    exact absurd herr hne
  | cons i rest =>
    obtain ⟨s', hs', -⟩ := dispatch_clearPhase (p := p) hmine
    rw [hs']
    exact hi.dispatch hs'

theorem PhaseInv.right (hi : PhaseInv s) (hret : s.returned = none) : PhasesRight s where
  reported r hr := by
    rw [hret] at hr
    cases hr
  stops _ x hx y hy := by
    rw [hi.parseFailed_now x hx]
    exact hi.entered_le y hy
  complete h := by
    rw [hret] at h
    cases h

/-- What has been asked for up to this phase is done when the phase is over without a failure. -/
theorem PhaseInv.passed_upto (hi : PhaseInv s) (hidle : s.idle = true) (hno : s.failed = [])
    {p : Phase} (hp : p = s.phase ∨ s.all = true ∧ p.mode < s.phase.mode) :
    ∀ i ∈ ofResfile s.src s.rf, (p, i) ∈ s.passed := by
  intro i hmine
  obtain rfl | ⟨hall, hlt⟩ := hp
  · obtain ⟨hpending, hfree⟩ := idle_spec hidle
    obtain hp | ⟨t, huse, -⟩ | hpass := hi.covered hno i hmine
    · rw [hpending] at hp
      cases hp
    · exact absurd (hfree t) huse
    · exact hpass
  · exact hi.earlier hno hall p hlt i hmine

theorem Phase.eq_of_mode {p q : Phase} (h : p.mode = q.mode) : p = q := by
  cases p <;> cases q <;> first | rfl | cases h

theorem next_spec {p : Phase} (h : s.next = some p) :
    s.all = true ∧ p.mode = s.phase.mode + 1 := by
  unfold PhaseRun.next at h
  split at h
  · rename_i hall
    exact ⟨hall, nextPhase_mode h⟩
  · cases h

/-- **The next phase begins.** -/
theorem PhaseInv.clear (hi : PhaseInv s) (hidle : s.idle = true) {p : Phase}
    (hnext : s.next = some p) (hno : s.parseFailed = []) : PhaseCore (clearPhase s p) := by
  obtain ⟨hall, hmode⟩ := next_spec hnext
  have hnew : ∀ i, (p, i) ∉ s.entered := fun i hent => by
    have hle := hi.entered_le _ hent
    simp only at hle
    omega
  exact {
    entered_le := fun x hx => by
      have hle := hi.entered_le x hx
      show x.1.mode ≤ p.mode
      omega
    entered_mine := hi.entered_mine
    entered_only := fun hnotall => absurd hall (by rw [show s.all = false from hnotall]; simp)
    ran := hi.ran
    apart := hi.apart
    parseFailed_sub := hi.parseFailed_sub
    parseFailed_now := fun x hx => by
      rw [show (clearPhase s p).parseFailed = [] from hno] at hx
      cases hx
    busy := fun t i huse => absurd rfl huse
    busy_inj := fun t t' i huse => absurd rfl huse
    pending_new := fun i hmine => ⟨hnew i, hmine⟩
    pending_nodup := ofResfile_nodup s.src s.rf
    covered := fun _ i hmine => Or.inl hmine
    earlier := fun hnone _ q hlt => by
      refine hi.passed_upto hidle hnone ?_
      have hlt : q.mode < p.mode := hlt
      by_cases heq : q.mode = s.phase.mode
      · exact Or.inl (Phase.eq_of_mode heq)
      · exact Or.inr ⟨hall, by omega⟩
    slot_failed := fun t hret => absurd rfl hret
    left := fun hobs => (by cases hobs)
    none_mine := hi.none_mine }

/-- **The last phase is over.** -/
theorem PhaseInv.finished (hi : PhaseInv s) (hidle : s.idle = true) (hnext : s.next = none)
    (hmet : s.failed ≠ [] → s.observed = true) :
    PhasesRight { s with returned := some s.err } where
  reported r hr hfailed := by
    cases hr
    obtain ⟨x, hx⟩ := List.exists_mem_of_ne_nil _ hfailed
    exact hi.observed_err.mp (hmet (List.ne_nil_of_mem (hi.parseFailed_sub x hx)))
  stops _ x hx y hy := by
    rw [hi.parseFailed_now x hx]
    exact hi.entered_le y hy
  complete hzero p hp := by
    have herr : s.err = 0 := Option.some.inj hzero
    have hno : s.failed = [] := by
      by_contra hne
      exact hi.observed_err.mp (hmet hne) herr
    refine hi.passed_upto hidle hno ?_
    by_cases hcur : p = s.phase
    · exact Or.inl hcur
    obtain hall | hphase := hp
    · -- with step 0 the last phase is the sixth
      have hall : s.all = true := hall
      have hlast : nextPhase s.phase = none := by
        rw [← hnext, PhaseRun.next, if_pos hall]
      refine Or.inr ⟨hall, ?_⟩
      cases hphase : s.phase <;> rw [hphase] at hlast hcur <;> cases hlast
      cases p <;> first | decide | exact absurd rfl hcur
    · exact absurd hphase hcur

/-! ## Over all runs -/

/-- What holds in every state of a run that meets its failures. -/
def RunInv (s : PhaseRun) : Prop := PhasesRight s ∧ (s.returned = none → PhaseInv s)

theorem PhaseInv.runInv (hi : PhaseInv s) (hret : s.returned = none) : RunInv s :=
  ⟨hi.right hret, fun _ => hi⟩

theorem phaseStep_returned {e : PhaseEvent} (h : phaseStep ops s e = some s') :
    s.returned = none := by
  unfold phaseStep at h
  split at h
  · cases h
  · rename_i hret
    simpa using hret

theorem phaseInv_step (e : PhaseEvent) (hi : RunInv s) (hg : FailuresMet s e)
    (h : phaseStep ops s e = some s') : RunInv s' := by
  have hret := phaseStep_returned h
  have hinv := hi.2 hret
  unfold phaseStep at h
  rw [if_neg (by simp [hret])] at h
  cases e with
  | dispatch =>
    exact (hinv.toPhaseCore.dispatch h).runInv ((dispatch_frame h).1.trans hret)
  | finish t perr =>
    obtain ⟨hinv', hret'⟩ := hinv.finish h
    exact hinv'.runInv (hret'.trans hret)
  | endPhase =>
    simp only at h
    split at h
    · rename_i hidle
      have hg := hg hret hidle
      split at h
      · rename_i p hnext
        cases h
        rw [hnext] at hg
        exact (hinv.clear hidle hnext hg).start.runInv ((startPhase_frame s p).1.trans hret)
      · rename_i hnext
        cases h
        rw [hnext] at hg
        exact ⟨hinv.finished hidle hnext hg, fun hret' => (by cases hret')⟩
    · cases h

/-- A failure that is not met is lost: the phase that follows begins, or 0 is returned. -/
theorem unmet_breaks (e : PhaseEvent) (hi : RunInv s) (hg : ¬ FailuresMet s e) :
    ∃ s', phaseStep ops s e = some s' ∧ ¬ PhasesRight s' := by
  cases e with
  | dispatch => exact absurd trivial hg
  | finish t perr => exact absurd trivial hg
  | endPhase =>
    simp only [FailuresMet, not_forall] at hg
    obtain ⟨hret, hidle, hg⟩ := hg
    have hinv := hi.2 hret
    unfold phaseStep
    rw [if_neg (by simp [hret])]
    simp only [hidle, if_true]
    cases hnext : s.next with
    | some p =>
      rw [hnext] at hg
      simp only [Option.isSome_some, if_true] at hg
      obtain ⟨x, hx⟩ := List.exists_mem_of_ne_nil _ hg
      have hmine := hinv.entered_mine x (hinv.ran x (Or.inl (hinv.parseFailed_sub x hx)))
      obtain ⟨i, rest, hlist⟩ := List.exists_cons_of_ne_nil (List.ne_nil_of_mem hmine)
      obtain ⟨hall, hmode⟩ := next_spec hnext
      obtain ⟨-, hall', hfailed'⟩ := startPhase_frame s p
      obtain ⟨s', hs', hentered⟩ := dispatch_clearPhase (p := p) hlist
      refine ⟨startPhase s p, rfl, fun hright => ?_⟩
      have hstart : startPhase s p = s' := by
        unfold startPhase
        rw [hs']
        rfl
      have hin : (p, i) ∈ (startPhase s p).entered := by
        rw [hstart, hentered]
        exact List.mem_cons_self
      have hle := hright.stops (hall'.trans hall) x (hfailed' ▸ hx) (p, i) hin
      rw [hinv.parseFailed_now x hx] at hle
      simp only at hle
      omega
    | none =>
      rw [hnext] at hg
      simp only [Option.isSome_none, Bool.false_eq_true, if_false, not_forall] at hg
      obtain ⟨hne, hnotobs⟩ := hg
      have herr : s.err = 0 := by
        by_contra herr
        exact hnotobs (hinv.observed_err.mpr herr)
      obtain ⟨x, hx⟩ := List.exists_mem_of_ne_nil _ hne
      have hent := hinv.ran x (Or.inl hx)
      refine ⟨_, rfl, fun hright => hinv.apart x hx ?_⟩
      refine hright.complete (by rw [herr]) x.1 ?_ x.2 (hinv.entered_mine x hent)
      by_cases hall : s.all = true
      · exact Or.inl hall
      · exact Or.inr (hinv.entered_only (by simpa using hall) x hent)

theorem runInv_init (src : ParseSrc) (rf : Nat) (step : Option Phase) :
    RunInv (parseResfileSteps src rf step) := by
  refine PhaseInv.runInv (PhaseCore.start ?_) (startPhase_frame ..).1
  exact {
    entered_le := fun x hx => (by cases hx)
    entered_mine := fun x hx => (by cases hx)
    entered_only := fun _ x hx => (by cases hx)
    ran := fun x hx => (by rcases hx with hx | hx <;> cases hx)
    apart := fun x hx => (by cases hx)
    parseFailed_sub := fun x hx => (by cases hx)
    parseFailed_now := fun x hx => (by cases hx)
    busy := fun t i huse => absurd rfl huse
    busy_inj := fun t t' i huse => absurd rfl huse
    pending_new := fun i hmine => ⟨fun hent => (by cases hent), hmine⟩
    pending_nodup := ofResfile_nodup src rf
    covered := fun _ i hmine => Or.inl hmine
    earlier := fun _ hall p hlt => by
      have hnone : step = none := Option.isNone_iff_eq_none.mp hall
      subst hnone
      have hlt : p.mode < Phase.adjust.mode := hlt
      have hpos := p.mode_pos
      simp only [Phase.mode] at hlt hpos
      omega
    slot_failed := fun t hret => absurd rfl hret
    left := fun hobs => (by cases hobs)
    none_mine := fun _ => rfl }

/-- **No failure is lost, no later phase is entered, and a return of 0 means that every sibuf
passed every phase, exactly when no parse fails in a phase that another follows, and a failure in
the last phase is met at a slot that is taken again.** -/
theorem phases_exact (ops : List LangOps) (src : ParseSrc) (rf : Nat) (step : Option Phase)
    (es : List PhaseEvent) :
    Visits (phaseStep ops) PhasesRight (parseResfileSteps src rf step) es ↔
      Along (phaseStep ops) FailuresMet (parseResfileSteps src rf step) es :=
  visits_iff_along (fun _ e _ hi hg h => phaseInv_step e hi hg h) (fun _ hi => hi.1)
    (fun _ e hi hg => unmet_breaks e hi hg) (runInv_init src rf step)

/-- The only sibuf of a resfile fails in the first phase, and 0 is returned. -/
theorem last_failure_is_lost :
    ¬ Visits (phaseStep [⟨⟨1, 3, 1, 1⟩⟩]) PhasesRight
      (parseResfileSteps ⟨[⟨1, ⟨1, 1, 1, 1⟩, 0, []⟩], ⟨0, 0, 0, 0⟩, fun _ _ => 0⟩ 1 (some .adjust))
      [.finish ⟨0, by decide⟩ 1, .endPhase] := by
  intro h
  have hlast := (h.2 _ rfl).2 _ rfl
  exact hlast.head.reported 0 rfl (fun hnil => (by cases hnil)) rfl

end Srcinv.Analysis
