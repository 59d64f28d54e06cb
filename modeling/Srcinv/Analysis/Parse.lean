import Mathlib.Data.List.Basic
import Mathlib.Logic.Function.Basic
import Srcinv.Core
import Srcinv.Lib.Run

/-!
# Phases over the sibufs of a resfile (`analysis/parse.c`)

`parseSibuf` is the gate in front of `ops->parse`: without `force` it lets a sibuf through
only when its status is one below the requested step.  `doPhase` is what each worker thread
runs; it records the step as the new status whenever `parseSibuf` returned 0.

* `gate_exact` — over every run from an empty src, a status of `s` stands for successful
  parses of the steps `1..s` in order, and skipped phase runs leave the status alone, exactly
  when no phase run meets a sibuf that is neither one step behind nor already there.
* `skip_moves_status` — a skipped phase run still writes the step it was asked for.

The log of `ops->parse` calls is a ghost field; the code does not keep it.
-/

namespace Srcinv.Analysis

open Srcinv.Lib

/-- A registered `lang_ops`: only its type decides whether it is chosen. -/
structure LangOps where
  type : SiType
  deriving DecidableEq, Repr

/-- `lang_ops_find`. -/
def langOpsFind (h : List LangOps) (type : SiType) : Option LangOps :=
  h.find? fun tmp => siTypeMatch tmp.type type

/-- The fields of a sibuf that the phases use, with the log of its `ops->parse` calls. -/
structure ParseBuf where
  rf : Nat
  fcType : SiType
  status : Nat
  calls : List (Phase × Int)
  deriving DecidableEq, Repr

/-- The steps whose `ops->parse` returned 0, oldest first. -/
def ParseBuf.succeeded (b : ParseBuf) : List Nat :=
  (b.calls.filter fun c => c.2 == 0).map fun c => c.1.mode

/-- `parse_sibuf`: returns its result, the sibuf and `si->type`.  `perr` is what `ops->parse`
    would return if it is reached. -/
def parseSibuf (ops : List LangOps) (siType : SiType) (buf : ParseBuf) (step : Phase)
    (force : Bool) (perr : Int) : Int × ParseBuf × SiType :=
  match langOpsFind ops buf.fcType with
  | none => (-1, buf, siType)
  | some _ =>
    if !force && buf.status != step.mode - 1 then (0, buf, siType)
    else
      let siType :=
        if siType.kernel ≠ buf.fcType.kernel then
          { siType with kernel := buf.fcType.kernel, osType := buf.fcType.osType }
        else siType
      let buf := { buf with calls := buf.calls ++ [(step, perr)] }
      if perr ≠ 0 then (-1, buf, siType) else (0, buf, siType)

/-- A worker slot, `struct mt_parse`. -/
structure MtParse where
  buf : Option Nat
  ret : Nat
  step : Phase
  inUse : Nat
  deriving DecidableEq, Repr

/-- The part of the src the phases work on. -/
structure ParseSrc where
  sibufs : List ParseBuf
  siType : SiType
  parsedFiles : Nat → Phase → Nat

/-- `do_phase` of slot `t` on its sibuf `b`, the `i`-th of the list. -/
def doPhase (ops : List LangOps) (st : ParseSrc) (t : MtParse) (i : Nat) (b : ParseBuf)
    (perr : Int) : ParseSrc × MtParse :=
  let (err, buf, siType) := parseSibuf ops st.siType b t.step false perr
  if err ≠ 0 then
    ({ st with sibufs := st.sibufs.set i buf, siType := siType }, { t with ret := 1, inUse := 0 })
  else
    -- the status is a 4-bit field; the steps 1..6 fit
    ({ sibufs := st.sibufs.set i { buf with status := t.step.mode % 16 }
       siType := siType
       parsedFiles := Function.update st.parsedFiles buf.rf
         (Function.update (st.parsedFiles buf.rf) t.step (st.parsedFiles buf.rf t.step + 1)) },
     { t with buf := none, inUse := 0 })

/-- What can happen to the src: a preview appends a sibuf, a worker runs one phase. -/
inductive ParseEvent where
  | preview (rf : Nat) (fcType : SiType)
  | phase (i : Nat) (step : Phase) (perr : Int)

def parseStep (ops : List LangOps) (st : ParseSrc) : ParseEvent → Option ParseSrc
  | .preview rf fcType => some { st with sibufs := st.sibufs ++ [⟨rf, fcType, 0, []⟩] }
  | .phase i step perr =>
    match st.sibufs[i]? with
    | none => none
    | some b => some (doPhase ops st ⟨some i, 0, step, 1⟩ i b perr).1

/-- The empty src. -/
def ParseSrc.empty : ParseSrc := ⟨[], ⟨0, 0, 0, 0⟩, fun _ _ => 0⟩

/-! ## The status of a sibuf -/

/-- Status `s` stands for successful parses of the steps `1..s`, in this order. -/
def StatusMeansParsed (st : ParseSrc) : Prop :=
  ∀ b ∈ st.sibufs, (List.range' 1 b.status).Sublist b.succeeded

/-- `parse_sibuf` would skip the sibuf: it has a parser and is not one step behind. -/
def Skips (ops : List LangOps) (b : ParseBuf) (step : Phase) : Prop :=
  (langOpsFind ops b.fcType).isSome ∧ b.status ≠ step.mode - 1

/-- A skipped phase run leaves the status of its sibuf as it is. -/
def SkipKeepsStatus (ops : List LangOps) (st : ParseSrc) : ParseEvent → Prop
  | .preview _ _ => True
  | .phase i step perr =>
    ∀ b, st.sibufs[i]? = some b → Skips ops b step →
      ∀ st', parseStep ops st (.phase i step perr) = some st' →
        ∀ b', st'.sibufs[i]? = some b' → b'.status = b.status

/-- The law of the phases over one run from the empty src. -/
def PhaseLaw (ops : List LangOps) (es : List ParseEvent) : Prop :=
  Visits (parseStep ops) StatusMeansParsed .empty es ∧
    Along (parseStep ops) (SkipKeepsStatus ops) .empty es

/-- A phase run meets a sibuf that is one step behind or already there (or has no parser). -/
def GateMet (ops : List LangOps) (st : ParseSrc) : ParseEvent → Prop
  | .preview _ _ => True
  | .phase i step _ =>
    ∀ b, st.sibufs[i]? = some b → (langOpsFind ops b.fcType).isSome →
      b.status = step.mode - 1 ∨ b.status = step.mode

/-- Under the gate the log of successes is exactly `1..status`. -/
def LogExact (st : ParseSrc) : Prop :=
  ∀ b ∈ st.sibufs, b.succeeded = List.range' 1 b.status

theorem mode_mod (step : Phase) : step.mode % 16 = step.mode := by
  cases step <;> rfl

theorem succeeded_append (b : ParseBuf) (step : Phase) (perr : Int) :
    ({ b with calls := b.calls ++ [(step, perr)] } : ParseBuf).succeeded =
      b.succeeded ++ if perr = 0 then [step.mode] else [] := by
  by_cases h : perr = 0
  · simp [ParseBuf.succeeded, h]
  · simp [ParseBuf.succeeded, h]

/-- Everything a phase run can do to its sibuf. -/
theorem phase_cases {ops : List LangOps} {st st' : ParseSrc} {i : Nat} {step : Phase} {perr : Int}
    {b : ParseBuf} (hb : st.sibufs[i]? = some b)
    (h : parseStep ops st (.phase i step perr) = some st') :
    (langOpsFind ops b.fcType = none ∧ st'.sibufs = st.sibufs.set i b) ∨
    (Skips ops b step ∧ st'.sibufs = st.sibufs.set i { b with status := step.mode }) ∨
    (b.status = step.mode - 1 ∧ perr ≠ 0 ∧
      st'.sibufs = st.sibufs.set i { b with calls := b.calls ++ [(step, perr)] }) ∨
    (b.status = step.mode - 1 ∧ perr = 0 ∧
      st'.sibufs = st.sibufs.set i
        { b with calls := b.calls ++ [(step, perr)], status := step.mode }) := by
  simp only [parseStep, hb, Option.some.injEq] at h
  subst h
  cases hops : langOpsFind ops b.fcType with
  | none =>
    left
    simp [doPhase, parseSibuf, hops]
  | some o =>
    right
    by_cases hst : b.status = step.mode - 1
    · by_cases hp : perr = 0
      · refine Or.inr (Or.inr ⟨hst, hp, ?_⟩)
        simp [doPhase, parseSibuf, hops, hst, hp, mode_mod]
      · refine Or.inr (Or.inl ⟨hst, hp, ?_⟩)
        simp [doPhase, parseSibuf, hops, hst, hp]
    · refine Or.inl ⟨⟨by simp [hops], hst⟩, ?_⟩
      simp [doPhase, parseSibuf, hops, hst, mode_mod]

/-- A phase run that is skipped still moves the status to the requested step. -/
theorem skip_moves_status {ops : List LangOps} {st st' : ParseSrc} {i : Nat} {step : Phase}
    {perr : Int} {b : ParseBuf} (hb : st.sibufs[i]? = some b) (hs : Skips ops b step)
    (h : parseStep ops st (.phase i step perr) = some st') :
    st'.sibufs[i]? = some { b with status := step.mode } := by
  have hi : i < st.sibufs.length := (List.getElem?_eq_some_iff.mp hb).1
  rcases phase_cases hb h with ⟨hno, _⟩ | ⟨_, hs'⟩ | ⟨hst, _⟩ | ⟨hst, _⟩
  · simp [Skips, hno] at hs
  · rw [hs', List.getElem?_set_self hi]
  · exact absurd hst hs.2
  · exact absurd hst hs.2

theorem logExact_set {st : ParseSrc} (hl : LogExact st) (i : Nat) {b : ParseBuf}
    (hb : b.succeeded = List.range' 1 b.status) : ∀ c ∈ st.sibufs.set i b,
      c.succeeded = List.range' 1 c.status := by
  intro c hc
  rcases List.mem_or_eq_of_mem_set hc with hc | rfl
  · exact hl c hc
  · exact hb

theorem logExact_step {ops : List LangOps} (st : ParseSrc) (e : ParseEvent) (st' : ParseSrc)
    (hl : LogExact st) (hg : GateMet ops st e) (h : parseStep ops st e = some st') :
    LogExact st' := by
  cases e with
  | preview rf fcType =>
    simp only [parseStep, Option.some.injEq] at h
    subst h
    intro b hb
    rcases List.mem_append.mp hb with hb | hb
    · exact hl b hb
    · simp only [List.mem_singleton] at hb
      subst hb
      rfl
  | phase i step perr =>
    cases hb : st.sibufs[i]? with
    | none => simp [parseStep, hb] at h
    | some b =>
      have hbl : b.succeeded = List.range' 1 b.status := hl b (List.mem_of_getElem? hb)
      have hpos := step.mode_pos
      rcases phase_cases hb h with ⟨_, hs⟩ | ⟨hsk, hs⟩ | ⟨_, hp, hs⟩ | ⟨hst, hp, hs⟩
      · rw [LogExact, hs]
        exact logExact_set hl i hbl
      · -- a skipped run is harmless only when the sibuf already has this status
        have hst : b.status = step.mode := (hg b hb hsk.1).resolve_left hsk.2
        rw [LogExact, hs]
        refine logExact_set hl i ?_
        show b.succeeded = List.range' 1 step.mode
        rw [hbl, hst]
      · rw [LogExact, hs]
        refine logExact_set hl i ?_
        rw [succeeded_append, if_neg hp, List.append_nil]
        exact hbl
      · rw [LogExact, hs]
        refine logExact_set hl i ?_
        show ({ b with calls := b.calls ++ [(step, perr)] } : ParseBuf).succeeded =
          List.range' 1 step.mode
        rw [succeeded_append, if_pos hp, hbl, hst,
          show step.mode = (step.mode - 1) + 1 by omega, List.range'_1_concat]
        simp [Nat.add_comm]

/-- **The status law holds along a run exactly when every phase run passes the gate.** -/
theorem gate_exact (ops : List LangOps) (es : List ParseEvent) :
    PhaseLaw ops es ↔ Along (parseStep ops) (GateMet ops) .empty es := by
  refine visits_along_iff logExact_step ?_ ?_ ?_ ?_
  · intro st hl b hb
    rw [hl b hb]
  · intro st e _ hg
    cases e with
    | preview rf fcType => trivial
    | phase i step perr =>
      intro b hb hs st' h b' hb'
      rw [skip_moves_status hb hs h] at hb'
      cases hb'
      exact ((hg b hb hs.1).resolve_left hs.2).symm
  · intro st e _ hng hr
    cases e with
    | preview rf fcType => exact absurd trivial hng
    | phase i step perr =>
      -- outside the gate the run is skipped and writes another status
      simp only [GateMet, not_forall, not_or] at hng
      obtain ⟨b, hb, hops, hbehind, hthere⟩ := hng
      have hs : Skips ops b step := ⟨hops, hbehind⟩
      have hstep : ∃ st', parseStep ops st (.phase i step perr) = some st' := by
        simp [parseStep, hb]
      obtain ⟨st', h⟩ := hstep
      have := hr b hb hs st' h _ (skip_moves_status hb hs h)
      exact absurd this.symm hthere
  · intro b hb
    simp [ParseSrc.empty] at hb

/-- Asking for phase 3 of a fresh sibuf: nothing is parsed, yet its status becomes 3. -/
theorem fresh_phase3_breaks_law :
    ¬ PhaseLaw [⟨⟨1, 3, 1, 1⟩⟩] [.preview 0 ⟨1, 1, 1, 1⟩, .phase 0 .getdetail 0] := by
  rintro ⟨⟨_, hv⟩, _⟩
  have h := ((hv _ rfl).2 _ rfl).head ⟨0, ⟨1, 1, 1, 1⟩, 3, []⟩ (by decide)
  exact absurd h (by decide)

end Srcinv.Analysis
