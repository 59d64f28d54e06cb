import Mathlib.Data.List.Nodup
import Mathlib.Logic.Function.Basic
import Srcinv.Lib.Run

/-!
# The frames of a sample state (`dec`, `dec_gimple_call`, `dec_gimple_return`, `fnl_init`)

A sample state decodes one statement after the other.  A call is decoded twice: the first time it
pushes a frame for the callee, and when that has returned the statement takes what is in `retval`.
There is one `retval` and one `arg_head` for all frames and all entry functions of the state.

Every frame, and every internal call, has a number of its own that the code does not keep; so has
each returned value, which says whom it is for.

* `decStep_inv` — what one call of `dec` keeps of the frames.
* `frames_exact` — the frames are a call stack all along a run exactly when no statement meets a
  value that an entry function left behind, and no entry function meets as many left arguments as
  it has parameters.
-/

namespace Srcinv.Analysis

open Srcinv.Lib

/-! ## The code -/

/-- The statements that do something to the frames. -/
inductive FrameStmt where
  | call (lhs internal : Bool) (args : List Nat)
  | ret
  | other
  deriving DecidableEq, Repr

/-- A function: its first statement, the one after each, its parameters, and whether it has a
    `GIMPLE_RETURN`. -/
structure FrameCode where
  fnFirstGimple : Nat → Option Nat
  cpNextGimple : Nat → Nat → Option Nat
  params : Nat → List Nat
  hasGreturn : Nat → Bool
  stmt : Nat → FrameStmt

/-- `struct arg_record`. -/
structure ArgRecord where
  ds : Nat
  raw : Nat
  deriving DecidableEq, Repr

/-- A statement of a frame. -/
structure CallSite where
  frame : Nat
  gs : Nat
  deriving DecidableEq, Repr

/-- What a frame was pushed for: a call with its arguments, or, without a site, an entry. -/
structure Activation where
  id : Nat
  fn : Nat
  site : Option CallSite
  args : List ArgRecord
  deriving DecidableEq, Repr

/-- `struct fn_list` with its activation. -/
structure Frame where
  act : Activation
  curpos : Option Nat
  deriving DecidableEq, Repr

/-- What is in `retval`; no value is `VOID_RETVAL`.  `site` is the call that it is for. -/
structure Retval where
  value : Option Nat
  act : Nat
  site : Option CallSite
  deriving DecidableEq, Repr

/-- A statement of a frame took a returned value. -/
structure Receipt where
  site : CallSite
  ret : Retval
  deriving DecidableEq, Repr

/-- The parameters of a frame were assigned the values. -/
structure Binding where
  act : Activation
  values : List ArgRecord
  deriving DecidableEq, Repr

/-- The parts of `struct sample_state` that the frames use; the last of `fn_list_head` is first.
    The driver stops after an error. -/
structure StackState where
  frames : List Frame
  retval : Option Retval
  argHead : List ArgRecord
  stopped : Bool
  next : Nat
  received : List Receipt
  bound : List Binding

/-- What `dec` gets from the evaluation of operands: the position that `dec_adjust_cp` finds, the
    `func_node` of the callee, the data states of the arguments up to one that has none, how many
    parameters are assigned, whether the left side takes the value, the data state of a returned
    value, and the position that the other statements leave, or their error. -/
structure DecEvent where
  startFn : Nat
  adjusted : Option Nat
  target : Option Nat
  argDs : List Nat
  assigned : Nat
  lhsTakes : Bool
  retDs : Option Nat
  curpos : Option (Option Nat)

variable (C : FrameCode)

/-- Set `curpos` of the last frame. -/
def StackState.setCurpos (s : StackState) (curpos : Option Nat) : StackState :=
  match s.frames with
  | [] => s
  | f :: rest => { s with frames := { f with curpos := curpos } :: rest }

/-- An error. -/
def StackState.stop (s : StackState) : StackState := { s with stopped := true }

/-- `sample_add_new_fn`. -/
def sampleAddNewFn (s : StackState) (fn : Nat) (site : Option CallSite) (args : List ArgRecord) :
    StackState :=
  { s with frames := ⟨⟨s.next, fn, site, args⟩, none⟩ :: s.frames, next := s.next + 1 }

/-- `fnl_init` of the last frame. -/
def fnlInit (s : StackState) (assigned : Nat) : StackState :=
  match s.frames with
  | [] => s
  | f :: rest =>
    let s := s.setCurpos (C.fnFirstGimple f.act.fn)
    if !C.hasGreturn f.act.fn then s.stop
    else if (C.params f.act.fn).length ≠ s.argHead.length then
      if rest ≠ [] then s.stop else s
    else
      let s := { s with bound := ⟨f.act, s.argHead.take assigned⟩ :: s.bound }
      if assigned < s.argHead.length then s.stop else s

/-- `dec_special_call`: no callback handles its call, so it is left to the caller. -/
def decSpecialCall (_callFn : Nat) : Int := -1

/-- `dec_gimple_call` at the statement `gs` of the last frame. -/
def decGimpleCall (s : StackState) (f : Frame) (gs : Nat) (lhs internal : Bool) (args : List Nat)
    (e : DecEvent) : StackState :=
  match s.retval with
  | some r =>
    if lhs && r.value.isSome && !e.lhsTakes then s.stop
    else
      { s with retval := none, received := ⟨⟨f.act.id, gs⟩, r⟩ :: s.received }.setCurpos
        (C.cpNextGimple f.act.fn gs)
  | none =>
    if internal then
      { s with retval := some ⟨none, s.next, some ⟨f.act.id, gs⟩⟩, next := s.next + 1 }
    else
      match e.target with
      | none => s.stop
      | some fn =>
        let argHead := List.zipWith ArgRecord.mk e.argDs args
        let s := { s with argHead := argHead }
        if e.argDs.length < args.length then s.stop
        else if decSpecialCall fn = 0 then s
        else fnlInit C (sampleAddNewFn s fn (some ⟨f.act.id, gs⟩) argHead) e.assigned

/-- `dec_gimple_return` of the last frame. -/
def decGimpleReturn (s : StackState) (f : Frame) (e : DecEvent) : StackState :=
  { s with retval := some ⟨e.retDs, f.act.id, f.act.site⟩, frames := s.frames.tail }

/-- `do_dec`; the other statements only move on. -/
def doDec (s : StackState) (f : Frame) (gs : Nat) (e : DecEvent) : StackState :=
  match C.stmt gs with
  | .call lhs internal args => decGimpleCall C s f gs lhs internal args e
  | .ret => decGimpleReturn s f e
  | .other =>
    match e.curpos with
    | none => s.stop
    | some curpos => s.setCurpos curpos

/-- `dec` after the entry has its frame. -/
def decFrame (s : StackState) (e : DecEvent) : StackState :=
  match s.frames with
  | [] => s
  | f :: _ =>
    match f.curpos with
    | some gs => doDec C s f gs e
    | none =>
      match e.adjusted with
      | none => s.stop
      | some gs => doDec C (s.setCurpos (some gs)) { f with curpos := some gs } gs e

/-- The frame of the entry, if there is none. -/
def decEntry (s : StackState) (e : DecEvent) : StackState :=
  if s.frames = [] then fnlInit C (sampleAddNewFn s e.startFn none []) e.assigned else s

/-- `dec`. -/
def dec (s : StackState) (e : DecEvent) : StackState :=
  let s := decEntry C s e
  if s.stopped then s else decFrame C s e

variable {n : Nat}

/-- A call of `dec` for one of the states of the set; none after an error. -/
def decStep (samples : Fin n → StackState) (e : Fin n × DecEvent) : Option (Fin n → StackState) :=
  if (samples e.1).stopped then none
  else some (Function.update samples e.1 (dec C (samples e.1) e.2))

/-- A sample state that has not decoded anything. -/
def StackState.init : StackState := ⟨[], none, [], false, 0, [], []⟩

/-! ## A call stack -/

def FrameCode.IsCall (gs : Nat) : Prop := ∃ lhs internal args, C.stmt gs = .call lhs internal args

/-- The frame is at the call that the site is. -/
def AtSite (f : Frame) (site : CallSite) : Prop :=
  site.frame = f.act.id ∧ f.curpos = some site.gs ∧ C.IsCall site.gs

/-- Each frame waits at the call that pushed the frame above it. -/
def WellStacked : List Frame → Prop
  | [] => True
  | [f] => f.act.site = none
  | g :: f :: rest => (∃ site, g.act.site = some site ∧ AtSite C f site) ∧ WellStacked (f :: rest)

/-- The frames of a state are a call stack. -/
structure StackRight (s : StackState) : Prop where
  /-- A caller stays at its call as long as the callee has a frame. -/
  waits : WellStacked C s.frames
  /-- When the callee has returned, the caller is the last frame and at the call. -/
  pending : ∀ r, s.retval = some r → ∀ site, r.site = some site →
    ∃ f rest, s.frames = f :: rest ∧ AtSite C f site
  /-- A returned value is taken by the call it is for, and so by none for an entry. -/
  received : ∀ x ∈ s.received, x.ret.site = some x.site
  once : (s.received.map fun x => x.ret.act).Nodup
  /-- Parameters get the arguments of their call, an entry gets none. -/
  bound : ∀ b ∈ s.bound, b.values <+: b.act.args
  params : s.stopped = false → ∀ f ∈ s.frames, f.act.site.isSome →
    ∃ b ∈ s.bound, b.act = f.act ∧ b.values = f.act.args

/-- A statement that takes the value moves on. -/
def MovesOn (samples : Fin n → StackState) (e : Fin n × DecEvent) : Prop :=
  ∀ s', decStep C samples e = some s' → ∀ x, (s' e.1).received = x :: (samples e.1).received →
    (s' e.1).retval = none ∧
      ∃ f rest, (s' e.1).frames = f :: rest ∧ f.act.id = x.site.frame ∧
        f.curpos = C.cpNextGimple f.act.fn x.site.gs

/-- `fnl_init` of an entry with the arguments that are left is without error. -/
def InitOk (argHead : List ArgRecord) (fn assigned : Nat) : Prop :=
  C.hasGreturn fn = true ∧
    ((C.params fn).length = argHead.length → argHead.length ≤ assigned)

/-- The statement that a call of `dec` decodes. -/
def curGimple (s : StackState) (e : DecEvent) : Option Nat :=
  (match s.frames with
  | [] => C.fnFirstGimple e.startFn
  | f :: _ => f.curpos) <|> e.adjusted

/-- An entry function would take left arguments. -/
def TakesArgs (s : StackState) (e : DecEvent) : Prop :=
  s.frames = [] ∧ C.hasGreturn e.startFn = true ∧
    (C.params e.startFn).length = s.argHead.length ∧ s.argHead ≠ [] ∧ 0 < e.assigned

/-- A call statement would take the value of an entry function. -/
def TakesValue (s : StackState) (e : DecEvent) : Prop :=
  (s.frames = [] → InitOk C s.argHead e.startFn e.assigned) ∧
    ∃ r gs lhs internal args, s.retval = some r ∧ r.site = none ∧ curGimple C s e = some gs ∧
      C.stmt gs = .call lhs internal args ∧ (lhs = true → r.value.isSome → e.lhsTakes = true)

/-- The condition on a call of `dec`. -/
def EntriesApart (samples : Fin n → StackState) (e : Fin n × DecEvent) : Prop :=
  (samples e.1).stopped = false →
    ¬ TakesArgs C (samples e.1) e.2 ∧ ¬ TakesValue C (samples e.1) e.2

variable {C} {s s' : StackState} {e : DecEvent}

/-! ## The invariant -/

/-- A call stack without the parameters, and what makes each number new. -/
structure FrameBase (C : FrameCode) (s : StackState) : Prop where
  waits : WellStacked C s.frames
  pending : ∀ r, s.retval = some r → ∀ site, r.site = some site →
    ∃ f rest, s.frames = f :: rest ∧ AtSite C f site
  received : ∀ x ∈ s.received, x.ret.site = some x.site
  once : (s.received.map fun x => x.ret.act).Nodup
  bound : ∀ b ∈ s.bound, b.values <+: b.act.args
  sorted : s.frames.Pairwise fun f g => g.act.id < f.act.id
  old : ∀ f ∈ s.frames, f.act.id < s.next
  ret : ∀ r, s.retval = some r → r.act < s.next ∧ (∀ f ∈ s.frames, f.act.id ≠ r.act) ∧
    ∀ x ∈ s.received, x.ret.act ≠ r.act
  taken : ∀ x ∈ s.received, x.ret.act < s.next ∧ ∀ f ∈ s.frames, f.act.id ≠ x.ret.act

/-- The parameters of all called frames were assigned. -/
def ParamsBound (s : StackState) : Prop :=
  s.stopped = false → ∀ f ∈ s.frames, f.act.site.isSome →
    ∃ b ∈ s.bound, b.act = f.act ∧ b.values = f.act.args

def FrameInv (C : FrameCode) (s : StackState) : Prop := FrameBase C s ∧ ParamsBound s

theorem FrameInv.right (h : FrameInv C s) : StackRight C s :=
  ⟨h.1.waits, h.1.pending, h.1.received, h.1.once, h.1.bound, h.2⟩

theorem frameInv_init : FrameInv C StackState.init := by
  refine ⟨⟨trivial, ?_, ?_, List.nodup_nil, ?_, List.Pairwise.nil, ?_, ?_, ?_⟩, ?_⟩
  · intro r hr
    cases hr
  · intro x hx
    cases hx
  · intro b hb
    cases hb
  · intro f hf
    cases hf
  · intro r hr
    cases hr
  · intro x hx
    cases hx
  · intro _ f hf
    cases hf

theorem FrameInv.stop (h : FrameBase C s) : FrameInv C s.stop :=
  ⟨⟨h.waits, h.pending, h.received, h.once, h.bound, h.sorted, h.old, h.ret, h.taken⟩,
    fun hs => (by cases hs)⟩

/-- Where the last frame is does not matter to those below. -/
theorem wellStacked_curpos {f : Frame} {rest : List Frame} (curpos : Option Nat) :
    WellStacked C ({ f with curpos := curpos } :: rest) ↔ WellStacked C (f :: rest) := by
  cases rest with
  | nil => exact Iff.rfl
  | cons g rest => exact Iff.rfl

/-- The last frame moves, when no value is waiting for it. -/
theorem FrameBase.setCurpos (h : FrameBase C s) (curpos : Option Nat)
    (hnone : ∀ r, s.retval = some r → r.site = none) : FrameBase C (s.setCurpos curpos) := by
  unfold StackState.setCurpos
  split
  · exact h
  · rename_i f rest hframes
    have hmem : ∀ {P : Nat → Prop}, (∀ g ∈ s.frames, P g.act.id) →
        ∀ g ∈ { f with curpos := curpos } :: rest, P g.act.id := by
      intro P hP g hg
      rw [hframes] at hP
      obtain rfl | hg := List.mem_cons.mp hg
      · exact hP f List.mem_cons_self
      · exact hP g (List.mem_cons_of_mem f hg)
    refine ⟨?_, ?_, h.received, h.once, h.bound, ?_, @hmem (· < s.next) h.old, ?_, ?_⟩
    · rw [wellStacked_curpos, ← hframes]
      exact h.waits
    · intro r hr site hsite
      rw [hnone r hr] at hsite
      cases hsite
    · have hs := h.sorted
      rw [hframes, List.pairwise_cons] at hs
      exact List.pairwise_cons.mpr ⟨hs.1, hs.2⟩
    · exact fun r hr => ⟨(h.ret r hr).1, @hmem (· ≠ r.act) (h.ret r hr).2.1, (h.ret r hr).2.2⟩
    · exact fun x hx => ⟨(h.taken x hx).1, @hmem (· ≠ x.ret.act) (h.taken x hx).2⟩

theorem ParamsBound.setCurpos (h : ParamsBound s) (curpos : Option Nat) :
    ParamsBound (s.setCurpos curpos) := by
  unfold StackState.setCurpos
  split
  · exact h
  · rename_i f rest hframes
    intro hs g hg
    rw [ParamsBound, hframes] at h
    obtain rfl | hg := List.mem_cons.mp hg
    · exact h hs f List.mem_cons_self
    · exact h hs g (List.mem_cons_of_mem f hg)

/-- A new frame over the others. -/
theorem FrameBase.push (h : FrameBase C s) {fn : Nat} {site : Option CallSite}
    {args : List ArgRecord} (hnone : ∀ r, s.retval = some r → r.site = none)
    (hwaits : WellStacked C (⟨⟨s.next, fn, site, args⟩, none⟩ :: s.frames)) :
    FrameBase C (sampleAddNewFn s fn site args) := by
  refine ⟨hwaits, ?_, h.received, h.once, h.bound, ?_, ?_, ?_, ?_⟩
  · intro r hr cs hsite
    rw [hnone r hr] at hsite
    cases hsite
  · exact List.pairwise_cons.mpr ⟨h.old, h.sorted⟩
  · intro f hf
    obtain rfl | hf := List.mem_cons.mp hf
    · exact Nat.lt_succ_self _
    · exact Nat.lt_succ_of_lt (h.old f hf)
  · intro r hr
    obtain ⟨hlt, hne, hrec⟩ := h.ret r hr
    refine ⟨Nat.lt_succ_of_lt hlt, fun f hf => ?_, hrec⟩
    obtain rfl | hf := List.mem_cons.mp hf
    · exact Nat.ne_of_gt hlt
    · exact hne f hf
  · intro x hx
    obtain ⟨hlt, hne⟩ := h.taken x hx
    refine ⟨Nat.lt_succ_of_lt hlt, fun f hf => ?_⟩
    obtain rfl | hf := List.mem_cons.mp hf
    · exact Nat.ne_of_gt hlt
    · exact hne f hf

theorem FrameBase.bind (h : FrameBase C s) {b : Binding} (hb : b.values <+: b.act.args) :
    FrameBase C { s with bound := b :: s.bound } :=
  ⟨h.waits, h.pending, h.received, h.once, List.forall_mem_cons.mpr ⟨hb, h.bound⟩, h.sorted, h.old,
    h.ret, h.taken⟩

/-- **A frame is pushed and initialised.**  Its parameters get a part of the arguments it was
pushed with, and all of them when there is no error. -/
theorem FrameInv.enter (h : FrameInv C s) {fn assigned : Nat} {site : Option CallSite}
    {args : List ArgRecord} (hnone : ∀ r, s.retval = some r → r.site = none)
    (hwaits : WellStacked C (⟨⟨s.next, fn, site, args⟩, none⟩ :: s.frames))
    (hargs : C.hasGreturn fn = true → (C.params fn).length = s.argHead.length →
      s.argHead.take assigned <+: args)
    (hcall : site.isSome → s.frames ≠ [] ∧ s.argHead = args) :
    FrameInv C (fnlInit C (sampleAddNewFn s fn site args) assigned) := by
  have hpush : FrameBase C ((sampleAddNewFn s fn site args).setCurpos (C.fnFirstGimple fn)) :=
    (h.1.push hnone hwaits).setCurpos _ hnone
  have hparams : site = none →
      ParamsBound ((sampleAddNewFn s fn site args).setCurpos (C.fnFirstGimple fn)) := by
    intro hsite hs f hf hsome
    obtain rfl | hf := List.mem_cons.mp hf
    · rw [hsite] at hsome
      cases hsome
    · exact h.2 hs f hf hsome
  simp only [fnlInit, sampleAddNewFn, StackState.setCurpos] at hpush hparams ⊢
  simp only [ne_eq, ite_not, Bool.not_eq_true']
  split
  · exact FrameInv.stop hpush
  · rename_i hret
    split
    · rename_i hlen
      have hpre := hargs (Bool.not_eq_false _ ▸ hret) hlen
      by_cases hassigned : assigned < s.argHead.length
      · simp only [hassigned, if_true]
        exact FrameInv.stop (hpush.bind hpre)
      · simp only [hassigned, if_false]
        refine ⟨hpush.bind hpre, fun hs f hf hsome => ?_⟩
        obtain rfl | hf := List.mem_cons.mp hf
        · refine ⟨_, List.mem_cons_self, rfl, ?_⟩
          rw [← (hcall hsome).2]
          exact List.take_of_length_le (Nat.not_lt.mp hassigned)
        · obtain ⟨b, hb, hbf⟩ := h.2 hs f hf hsome
          exact ⟨b, List.mem_cons_of_mem _ hb, hbf⟩
    · split
      · rename_i hrest
        refine ⟨hpush, hparams ?_⟩
        cases hsite : site with
        | none => rfl
        | some cs => exact absurd hrest (hcall (by rw [hsite]; rfl)).1
      · exact FrameInv.stop hpush

/-! ## Each statement -/

/-- A value is taken by the call that it is for. -/
theorem FrameBase.receive (h : FrameBase C s) {r : Retval} {f : Frame} {rest : List Frame}
    {gs : Nat}
    (hr : s.retval = some r) (hframes : s.frames = f :: rest)
    (hgs : ∀ g, f.curpos = some g → g = gs)
    (hsite : r.site ≠ none) :
    FrameBase C { s with retval := none, received := ⟨⟨f.act.id, gs⟩, r⟩ :: s.received } := by
  obtain ⟨hlt, hne, hrec⟩ := h.ret r hr
  refine ⟨h.waits, fun _ hx => (by cases hx), List.forall_mem_cons.mpr ⟨?_, h.received⟩,
    ?_, h.bound, h.sorted, h.old, fun _ hx => (by cases hx),
    List.forall_mem_cons.mpr ⟨⟨hlt, hne⟩, h.taken⟩⟩
  · obtain ⟨site, hs⟩ := Option.ne_none_iff_exists'.mp hsite
    obtain ⟨f', rest', hf', hframe, hcur, -⟩ := h.pending r hr site hs
    rw [hframes] at hf'
    obtain ⟨rfl, -⟩ := List.cons.inj hf'
    obtain ⟨frame, sgs⟩ := site
    show r.site = some ⟨f.act.id, gs⟩
    rw [hs]
    exact congrArg some (congrArg₂ CallSite.mk hframe (hgs _ hcur))
  · rw [List.map_cons, List.nodup_cons]
    refine ⟨fun hmem => ?_, h.once⟩
    obtain ⟨x, hx, hact⟩ := List.mem_map.mp hmem
    exact hrec x hx hact

theorem FrameInv.doReturn (h : FrameInv C s) {f : Frame} {rest : List Frame}
    (hframes : s.frames = f :: rest) : FrameInv C (decGimpleReturn s f e) := by
  have hsorted := h.1.sorted
  rw [hframes, List.pairwise_cons] at hsorted
  have hmem : ∀ g ∈ s.frames.tail, g ∈ s.frames := fun g hg => List.mem_of_mem_tail hg
  have htail : s.frames.tail = rest := by rw [hframes]; rfl
  have hwaits := h.1.waits
  rw [hframes] at hwaits
  have hf : f ∈ s.frames := by rw [hframes]; exact List.mem_cons_self
  refine ⟨⟨?_, ?_, h.1.received, h.1.once, h.1.bound, ?_, fun g hg => h.1.old g (hmem g hg), ?_,
    fun x hx => ⟨(h.1.taken x hx).1, fun g hg => (h.1.taken x hx).2 g (hmem g hg)⟩⟩,
    fun hs g hg => h.2 hs g (hmem g hg)⟩
  · show WellStacked C s.frames.tail
    rw [htail]
    cases rest with
    | nil => exact trivial
    | cons g rest => exact hwaits.2
  · intro r hr site hsite
    obtain rfl := Option.some.inj hr
    show ∃ g rest', s.frames.tail = g :: rest' ∧ _
    rw [htail]
    cases rest with
    | nil =>
      rw [show f.act.site = none from hwaits] at hsite
      cases hsite
    | cons g rest =>
      obtain ⟨⟨site', hsite', hat⟩, -⟩ := hwaits
      obtain rfl := Option.some.inj (hsite'.symm.trans hsite)
      exact ⟨g, rest, rfl, hat⟩
  · show List.Pairwise _ s.frames.tail
    rw [htail]
    exact hsorted.2
  · intro r hr
    obtain rfl := Option.some.inj hr
    refine ⟨h.1.old f hf, fun g hg => ?_, fun x hx heq => (h.1.taken x hx).2 f hf heq.symm⟩
    have hrest : g ∈ s.frames.tail := hg
    rw [htail] at hrest
    exact Nat.ne_of_lt (hsorted.1 g hrest)

variable {f : Frame} {rest : List Frame} {gs : Nat}

/-- An internal call leaves a value for its own statement. -/
theorem FrameInv.internal (h : FrameInv C s) (hframes : s.frames = f :: rest)
    (hat : AtSite C f ⟨f.act.id, gs⟩) :
    FrameInv C { s with
      retval := some ⟨none, s.next, some ⟨f.act.id, gs⟩⟩
      next := s.next + 1 } := by
  refine ⟨⟨h.1.waits, ?_, h.1.received, h.1.once, h.1.bound, h.1.sorted,
    fun g hg => Nat.lt_succ_of_lt (h.1.old g hg), ?_,
    fun x hx => ⟨Nat.lt_succ_of_lt (h.1.taken x hx).1, (h.1.taken x hx).2⟩⟩, h.2⟩
  · intro r hr site hsite
    obtain rfl := Option.some.inj hr
    obtain rfl := Option.some.inj hsite
    exact ⟨f, rest, hframes, hat⟩
  · intro r hr
    obtain rfl := Option.some.inj hr
    exact ⟨Nat.lt_succ_self _, fun g hg => Nat.ne_of_lt (h.1.old g hg),
      fun x hx => Nat.ne_of_lt (h.1.taken x hx).1⟩

theorem FrameBase.withArgs (h : FrameBase C s) (argHead : List ArgRecord) :
    FrameBase C { s with argHead := argHead } :=
  ⟨h.waits, h.pending, h.received, h.once, h.bound, h.sorted, h.old, h.ret, h.taken⟩

/-- The value at a call that takes it is not one that an entry left. -/
def NotLeft (C : FrameCode) (s : StackState) (gs : Nat) (e : DecEvent) : Prop :=
  ∀ r lhs internal args, s.retval = some r → C.stmt gs = .call lhs internal args →
    (lhs = true → r.value.isSome → e.lhsTakes = true) → r.site ≠ none

theorem decSpecialCall_ne (callFn : Nat) : decSpecialCall callFn ≠ 0 := by
  unfold decSpecialCall
  decide

theorem FrameInv.doCall (h : FrameInv C s) (hframes : s.frames = f :: rest)
    (hcur : f.curpos = some gs) {lhs internal : Bool} {args : List Nat}
    (hstmt : C.stmt gs = .call lhs internal args) (hleft : NotLeft C s gs e) :
    FrameInv C (decGimpleCall C s f gs lhs internal args e) := by
  have hat : AtSite C f ⟨f.act.id, gs⟩ := ⟨rfl, hcur, lhs, internal, args, hstmt⟩
  unfold decGimpleCall
  split
  · rename_i r hr
    split
    · exact FrameInv.stop h.1
    · rename_i htakes
      have hsite : r.site ≠ none := by
        refine hleft r lhs internal args hr hstmt fun hl hv => ?_
        simpa [hl, hv] using htakes
      have hgs : ∀ g, f.curpos = some g → g = gs := fun g hg => Option.some.inj (hg.symm.trans hcur)
      have hparams : ParamsBound { s with
          retval := none, received := ⟨⟨f.act.id, gs⟩, r⟩ :: s.received } := h.2
      exact ⟨(h.1.receive hr hframes hgs hsite).setCurpos _ fun _ hx => (by cases hx),
        hparams.setCurpos _⟩
  · rename_i hr
    split
    · exact h.internal hframes hat
    · split
      · exact FrameInv.stop h.1
      · rename_i fn _
        split
        · exact FrameInv.stop (h.1.withArgs _)
        · rw [if_neg (decSpecialCall_ne fn)]
          have hargs : FrameInv C { s with argHead := List.zipWith ArgRecord.mk e.argDs args } :=
            ⟨h.1.withArgs _, h.2⟩
          refine hargs.enter (fun r hx => ?_) ?_ (fun _ _ => ?_) fun _ => ?_
          · cases hr.symm.trans hx
          · show WellStacked C (_ :: s.frames)
            rw [hframes]
            refine ⟨⟨_, rfl, hat⟩, ?_⟩
            rw [← hframes]
            exact h.1.waits
          · exact List.take_prefix ..
          · exact ⟨hframes ▸ List.cons_ne_nil f rest, rfl⟩

/-- No value waits for a frame that is not at a call. -/
theorem FrameBase.none_waiting (h : FrameBase C s) (hframes : s.frames = f :: rest)
    (hno : ∀ gs, f.curpos = some gs → ¬ C.IsCall gs) : ∀ r, s.retval = some r → r.site = none := by
  intro r hr
  cases hsite : r.site with
  | none => rfl
  | some site =>
    obtain ⟨f', rest', hf', -, hcur, hcall⟩ := h.pending r hr site hsite
    rw [hframes] at hf'
    obtain ⟨rfl, -⟩ := List.cons.inj hf'
    exact absurd hcall (hno _ hcur)

theorem FrameInv.doDec (h : FrameInv C s) (hframes : s.frames = f :: rest)
    (hcur : f.curpos = some gs) (hleft : NotLeft C s gs e) : FrameInv C (doDec C s f gs e) := by
  unfold Analysis.doDec
  split
  · rename_i hstmt
    exact h.doCall hframes hcur hstmt hleft
  · exact h.doReturn hframes
  · rename_i hstmt
    split
    · exact FrameInv.stop h.1
    · refine ⟨h.1.setCurpos _ (h.1.none_waiting hframes fun g hg hcall => ?_),
        ParamsBound.setCurpos h.2 _⟩
      obtain rfl := Option.some.inj (hg.symm.trans hcur)
      obtain ⟨lhs, internal, args, hc⟩ := hcall
      cases hc.symm.trans hstmt

/-- The statement that the last frame decodes. -/
def frameGimple (s : StackState) (e : DecEvent) : Option Nat :=
  (s.frames.head?.bind Frame.curpos) <|> e.adjusted

/-- What `dec` does with the last frame: it decodes one statement, from a state in which the frame
is at it, or stops. -/
theorem decFrame_cases (hframes : s.frames = f :: rest) :
    (frameGimple s e = none ∧ decFrame C s e = s.stop) ∨
      ∃ gs, frameGimple s e = some gs ∧
        decFrame C s e = doDec C (s.setCurpos (some gs)) { f with curpos := some gs } gs e := by
  unfold decFrame frameGimple
  simp only [hframes, List.head?_cons, Option.bind_some]
  cases hcur : f.curpos with
  | some gs =>
    refine Or.inr ⟨gs, rfl, ?_⟩
    have hf : { f with curpos := some gs } = f := by rw [← hcur]
    have hs : s.setCurpos (some gs) = s := by
      simp only [StackState.setCurpos, hframes]
      rw [hf, ← hframes]
    rw [hf, hs]
  | none =>
    cases e.adjusted with
    | none => exact Or.inl ⟨rfl, rfl⟩
    | some gs => exact Or.inr ⟨gs, rfl, rfl⟩

/-- A position found by `dec_adjust_cp`, or the one that the frame has. -/
theorem FrameInv.atGimple (h : FrameInv C s) (hframes : s.frames = f :: rest)
    (hgs : frameGimple s e = some gs) : FrameInv C (s.setCurpos (some gs)) := by
  cases hcur : f.curpos with
  | some g =>
    have hg : g = gs := by
      simpa [frameGimple, hframes, hcur] using hgs
    have hf : { f with curpos := some gs } = f := by rw [← hg, ← hcur]
    have hs : s.setCurpos (some gs) = s := by
      simp only [StackState.setCurpos, hframes]
      rw [hf, ← hframes]
    rw [hs]
    exact h
  | none =>
    refine ⟨h.1.setCurpos _ (h.1.none_waiting hframes fun g hg => ?_), ParamsBound.setCurpos h.2 _⟩
    rw [hcur] at hg
    cases hg

theorem setCurpos_frames (hframes : s.frames = f :: rest) (curpos : Option Nat) :
    (s.setCurpos curpos).frames = { f with curpos := curpos } :: rest := by
  simp only [StackState.setCurpos, hframes]

theorem setCurpos_retval (curpos : Option Nat) : (s.setCurpos curpos).retval = s.retval := by
  unfold StackState.setCurpos
  split <;> rfl

/-- **One statement** keeps the invariant, if it does not take what an entry left. -/
theorem FrameInv.decFrame (h : FrameInv C s)
    (hleft : ∀ gs, frameGimple s e = some gs → NotLeft C s gs e) :
    FrameInv C (decFrame C s e) := by
  cases hframes : s.frames with
  | nil =>
    unfold Analysis.decFrame
    rw [hframes]
    exact h
  | cons f rest =>
    obtain ⟨-, heq⟩ | ⟨gs, hgs, heq⟩ := decFrame_cases (C := C) (e := e) hframes
    · rw [heq]
      exact FrameInv.stop h.1
    · rw [heq]
      refine (h.atGimple hframes hgs).doDec (setCurpos_frames hframes _) rfl ?_
      intro r lhs internal args hr
      rw [setCurpos_retval] at hr
      exact hleft gs hgs r lhs internal args hr

/-! ## The frame of an entry -/

/-- What initialising the frame of an entry leaves. -/
theorem decEntry_spec (hframes : s.frames = []) (hs : s.stopped = false) :
    (decEntry C s e).frames = [⟨⟨s.next, e.startFn, none, []⟩, C.fnFirstGimple e.startFn⟩] ∧
      (decEntry C s e).retval = s.retval ∧ (decEntry C s e).received = s.received ∧
      ((decEntry C s e).stopped = false ↔ InitOk C s.argHead e.startFn e.assigned) ∧
      (TakesArgs C s e → ∃ b ∈ (decEntry C s e).bound, b.act.args = [] ∧ b.values ≠ []) := by
  have hargs : (sampleAddNewFn s e.startFn none []).argHead = s.argHead := rfl
  rw [decEntry, if_pos hframes]
  simp only [fnlInit, sampleAddNewFn, StackState.setCurpos, hframes, ne_eq, ite_not,
    Bool.not_eq_true', not_true_eq_false, if_false, InitOk, TakesArgs, true_and] at hargs ⊢
  by_cases hret : C.hasGreturn e.startFn = true
  · simp only [hret, Bool.true_eq_false, if_false, true_and]
    by_cases hlen : (C.params e.startFn).length = s.argHead.length
    · simp only [hlen, if_true, true_implies, true_and]
      by_cases hassigned : e.assigned < s.argHead.length
      · simp only [hassigned, if_true, StackState.stop, Bool.true_eq_false, false_iff,
          Nat.not_le, true_and]
        rintro ⟨hne, hpos⟩
        refine ⟨_, List.mem_cons_self, rfl, fun hnil => ?_⟩
        obtain hzero | hnil := List.take_eq_nil_iff.mp hnil
        · omega
        · exact hne hnil
      · simp only [hassigned, if_false, hs, true_iff, true_and]
        refine ⟨Nat.not_lt.mp hassigned, ?_⟩
        rintro ⟨hne, hpos⟩
        refine ⟨_, List.mem_cons_self, rfl, fun hnil => ?_⟩
        obtain hzero | hnil := List.take_eq_nil_iff.mp hnil
        · omega
        · exact hne hnil
    · simp only [hlen, if_false, hs, false_implies, false_and, true_and]
  · have hfalse : C.hasGreturn e.startFn = false := by simpa using hret
    simp only [hfalse, if_true, StackState.stop, Bool.true_eq_false, Bool.false_eq_true, false_and,
      false_implies, true_and]

/-- The frame of an entry keeps the invariant, if the entry takes no left arguments. -/
theorem FrameInv.decEntry (h : FrameInv C s) (hargs : ¬ TakesArgs C s e) :
    FrameInv C (decEntry C s e) := by
  unfold Analysis.decEntry
  split
  · rename_i hframes
    refine h.enter (fun r hr => ?_) ?_ (fun hret hlen => ?_) fun hsome => (by cases hsome)
    · cases hsite : r.site with
      | none => rfl
      | some site =>
        obtain ⟨f, rest, hf, -⟩ := h.1.pending r hr site hsite
        rw [hframes] at hf
        cases hf
    · rw [hframes]
      rfl
    · by_cases hnil : s.argHead = []
      · have htake : s.argHead.take e.assigned = [] := by rw [hnil, List.take_nil]
        exact htake ▸ List.nil_prefix
      · have hzero : e.assigned = 0 := by
          by_contra hne
          exact hargs ⟨hframes, hret, hlen, hnil, Nat.pos_of_ne_zero hne⟩
        have htake : s.argHead.take e.assigned = [] := by rw [hzero, List.take_zero]
        exact htake ▸ List.nil_prefix
  · exact h

/-- The statement that is decoded does not depend on whether the frame is there yet. -/
theorem frameGimple_decEntry (hs : s.stopped = false) :
    frameGimple (decEntry C s e) e = curGimple C s e := by
  unfold curGimple frameGimple
  cases hframes : s.frames with
  | nil =>
    rw [(decEntry_spec hframes hs).1]
    rfl
  | cons f rest =>
    rw [decEntry, if_neg (hframes ▸ List.cons_ne_nil f rest), hframes]
    rfl

theorem decEntry_retval (hs : s.stopped = false) : (decEntry C s e).retval = s.retval := by
  by_cases hframes : s.frames = []
  · exact (decEntry_spec hframes hs).2.1
  · rw [decEntry, if_neg hframes]

theorem decEntry_received (hs : s.stopped = false) : (decEntry C s e).received = s.received := by
  by_cases hframes : s.frames = []
  · exact (decEntry_spec hframes hs).2.2.1
  · rw [decEntry, if_neg hframes]

/-- The entry frame is without error exactly when `InitOk` says so. -/
theorem decEntry_stopped (hs : s.stopped = false) : (decEntry C s e).stopped = false ↔
    (s.frames = [] → InitOk C s.argHead e.startFn e.assigned) := by
  by_cases hframes : s.frames = []
  · rw [(decEntry_spec hframes hs).2.2.2.1]
    exact ⟨fun h _ => h, fun h => h hframes⟩
  · rw [decEntry, if_neg hframes, hs]
    exact ⟨fun _ h => absurd h hframes, fun _ => rfl⟩

/-- **One call of `dec`** under the condition. -/
theorem FrameInv.dec (h : FrameInv C s) (hs : s.stopped = false) (hargs : ¬ TakesArgs C s e)
    (hvalue : ¬ TakesValue C s e) : FrameInv C (dec C s e) := by
  have hentry := h.decEntry hargs
  unfold Analysis.dec
  dsimp only
  split
  · exact hentry
  · rename_i hrun
    have hok := (decEntry_stopped (C := C) (e := e) hs).mp (by simpa using hrun)
    refine hentry.decFrame fun gs hgs r lhs internal args hr hstmt htakes hsite => hvalue ?_
    rw [decEntry_retval hs] at hr
    rw [frameGimple_decEntry hs] at hgs
    exact ⟨hok, r, gs, lhs, internal, args, hr, hsite, hgs, hstmt, htakes⟩

/-! ## Outside the condition -/

theorem setCurpos_bound (curpos : Option Nat) : (s.setCurpos curpos).bound = s.bound := by
  unfold StackState.setCurpos
  split <;> rfl

theorem setCurpos_received (curpos : Option Nat) : (s.setCurpos curpos).received = s.received := by
  unfold StackState.setCurpos
  split <;> rfl

theorem bound_fnlInit {b : Binding} (hb : b ∈ s.bound) (assigned : Nat) :
    b ∈ (fnlInit C s assigned).bound := by
  unfold fnlInit
  split
  · exact hb
  · rename_i f rest hframes
    have hset := setCurpos_bound (s := s) (C.fnFirstGimple f.act.fn)
    dsimp only
    split
    · exact hset ▸ hb
    · split
      · split
        · exact hset ▸ hb
        · exact hset ▸ hb
      · have hcons : b ∈ (⟨f.act, (s.setCurpos (C.fnFirstGimple f.act.fn)).argHead.take assigned⟩ ::
            (s.setCurpos (C.fnFirstGimple f.act.fn)).bound) := List.mem_cons_of_mem _ (hset ▸ hb)
        split
        · exact hcons
        · exact hcons

theorem bound_decGimpleCall {b : Binding} (hb : b ∈ s.bound) (f : Frame) (gs : Nat)
    (lhs internal : Bool) (args : List Nat) :
    b ∈ (decGimpleCall C s f gs lhs internal args e).bound := by
  unfold decGimpleCall
  split
  · split
    · exact hb
    · rw [setCurpos_bound]
      exact hb
  · split
    · exact hb
    · split
      · exact hb
      · dsimp only
        split
        · exact hb
        · rw [if_neg (decSpecialCall_ne _)]
          refine bound_fnlInit ?_ _
          exact hb

theorem bound_doDec {b : Binding} (hb : b ∈ s.bound) (f : Frame) (gs : Nat) :
    b ∈ (doDec C s f gs e).bound := by
  unfold doDec
  split
  · exact bound_decGimpleCall hb ..
  · exact hb
  · split
    · exact hb
    · rw [setCurpos_bound]
      exact hb

theorem bound_dec {b : Binding} (hb : b ∈ (decEntry C s e).bound) : b ∈ (dec C s e).bound := by
  unfold dec
  dsimp only
  split
  · exact hb
  · unfold decFrame
    split
    · exact hb
    · split
      · exact bound_doDec hb ..
      · split
        · exact hb
        · exact bound_doDec (setCurpos_bound (s := decEntry C s e) _ ▸ hb) ..

/-- Arguments that an entry function takes are not those of a call. -/
theorem not_right_of_takesArgs (hs : s.stopped = false) (h : TakesArgs C s e) :
    ¬ StackRight C (dec C s e) := by
  obtain ⟨b, hb, hargs, hvalues⟩ := (decEntry_spec h.1 hs).2.2.2.2 h
  intro hr
  have hpre := hr.bound b (bound_dec hb)
  rw [hargs] at hpre
  exact hvalues (List.prefix_nil.mp hpre)

theorem received_decGimpleCall {r : Retval} (hr : s.retval = some r) {f : Frame} {gs : Nat}
    {lhs internal : Bool} {args : List Nat}
    (htakes : lhs = true → r.value.isSome → e.lhsTakes = true) :
    (decGimpleCall C s f gs lhs internal args e).received = ⟨⟨f.act.id, gs⟩, r⟩ :: s.received := by
  have hno : (lhs && r.value.isSome && !e.lhsTakes) = false := by
    cases hl : lhs with
    | false => rfl
    | true =>
      cases hv : r.value.isSome with
      | false => rfl
      | true => rw [htakes hl hv]; rfl
  unfold decGimpleCall
  simp only [hr, hno, Bool.false_eq_true, if_false]
  exact setCurpos_received _

/-- A value that an entry function left is for no call. -/
theorem not_right_of_takesValue (hs : s.stopped = false) (h : TakesValue C s e) :
    ¬ StackRight C (dec C s e) := by
  obtain ⟨hok, r, gs, lhs, internal, args, hr, hsite, hgs, hstmt, htakes⟩ := h
  have hrun := (decEntry_stopped (C := C) (e := e) hs).mpr hok
  rw [← frameGimple_decEntry hs] at hgs
  rw [← decEntry_retval (C := C) (e := e) hs] at hr
  intro hright
  have hdec : dec C s e = decFrame C (decEntry C s e) e := by
    unfold dec
    dsimp only
    rw [hrun]
    rfl
  cases hframes : (decEntry C s e).frames with
  | nil =>
    by_cases hnil : s.frames = []
    · rw [(decEntry_spec hnil hs).1] at hframes
      cases hframes
    · rw [decEntry, if_neg hnil] at hframes
      exact hnil hframes
  | cons f rest =>
    obtain ⟨hno, -⟩ | ⟨gs', hgs', heq⟩ := decFrame_cases (C := C) (e := e) hframes
    · rw [hno] at hgs
      cases hgs
    · obtain rfl := Option.some.inj (hgs'.symm.trans hgs)
      have hr' : ((decEntry C s e).setCurpos (some gs')).retval = some r := by
        rw [setCurpos_retval]
        exact hr
      rw [hdec, heq, doDec, hstmt] at hright
      have hrec := hright.received ⟨⟨f.act.id, gs'⟩, r⟩ (by
        show _ ∈ (decGimpleCall ..).received
        rw [received_decGimpleCall hr' htakes]
        exact List.mem_cons_self)
      rw [hsite] at hrec
      cases hrec

/-! ## Every run -/

variable {samples samples' : Fin n → StackState} {ev : Fin n × DecEvent}

theorem decStep_eq (hx : decStep C samples ev = some samples') :
    (samples ev.1).stopped = false ∧
      samples' = Function.update samples ev.1 (dec C (samples ev.1) ev.2) := by
  unfold decStep at hx
  split at hx
  · cases hx
  · rename_i hrun
    exact ⟨by simpa using hrun, (Option.some.inj hx).symm⟩

/-- **One step of the set** under the condition keeps the invariant of each state. -/
theorem decStep_inv (h : ∀ i, FrameInv C (samples i)) (hg : EntriesApart C samples ev)
    (hx : decStep C samples ev = some samples') (i : Fin n) : FrameInv C (samples' i) := by
  obtain ⟨hs, rfl⟩ := decStep_eq hx
  rw [Function.update_apply]
  split
  · exact (h ev.1).dec hs (hg hs).1 (hg hs).2
  · exact h i

/-- A step outside the condition leaves a state that is not right. -/
theorem decStep_bad (hng : ¬ EntriesApart C samples ev) :
    ∃ samples', decStep C samples ev = some samples' ∧ ¬ ∀ i, StackRight C (samples' i) := by
  rw [EntriesApart, Classical.not_imp] at hng
  obtain ⟨hs, hng⟩ := hng
  refine ⟨_, if_neg (by rw [hs]; decide), fun hright => ?_⟩
  have hone := hright ev.1
  rw [Function.update_self] at hone
  exact hng ⟨fun h => not_right_of_takesArgs hs h hone, fun h => not_right_of_takesValue hs h hone⟩

theorem received_fnlInit (assigned : Nat) : (fnlInit C s assigned).received = s.received := by
  unfold fnlInit
  split
  · rfl
  · rename_i f rest hframes
    have hset := setCurpos_received (s := s) (C.fnFirstGimple f.act.fn)
    dsimp only
    split
    · exact hset
    · split
      · split
        · exact hset
        · exact hset
      · split
        · exact hset
        · exact hset

/-- Only a call takes a value, and it moves on. -/
theorem doDec_movesOn (hframes : s.frames = f :: rest) {x : Receipt}
    (hx : (doDec C s f gs e).received = x :: s.received) :
    (doDec C s f gs e).retval = none ∧ x.site = ⟨f.act.id, gs⟩ ∧
      (doDec C s f gs e).frames = { f with curpos := C.cpNextGimple f.act.fn gs } :: rest := by
  have hno : ∀ {l : List Receipt}, l = s.received → l ≠ x :: s.received :=
    fun hl h => List.cons_ne_self x s.received (h.symm.trans hl)
  cases hstmt : C.stmt gs with
  | ret =>
    rw [doDec, hstmt] at hx
    exact absurd hx (hno rfl)
  | other =>
    rw [doDec, hstmt] at hx
    dsimp only at hx
    split at hx
    · exact absurd hx (hno rfl)
    · exact absurd hx (hno (setCurpos_received _))
  | call lhs internal args =>
    have hcall : doDec C s f gs e = decGimpleCall C s f gs lhs internal args e := by
      rw [doDec, hstmt]
    rw [hcall] at hx ⊢
    cases hr : s.retval with
    | some r =>
      by_cases htakes : (lhs && r.value.isSome && !e.lhsTakes) = true
      · simp only [decGimpleCall, hr, htakes, if_true] at hx
        exact absurd hx (hno rfl)
      · simp only [decGimpleCall, hr, htakes, Bool.false_eq_true, if_false] at hx ⊢
        rw [setCurpos_received] at hx
        obtain ⟨rfl, -⟩ := List.cons.inj hx
        have htaken : { s with
            retval := none, received := ⟨⟨f.act.id, gs⟩, r⟩ :: s.received }.frames = f :: rest :=
          hframes
        exact ⟨setCurpos_retval _, rfl, setCurpos_frames htaken _⟩
    | none =>
      simp only [decGimpleCall, hr] at hx
      split at hx
      · exact absurd hx (hno rfl)
      · split at hx
        · exact absurd hx (hno rfl)
        · split at hx
          · exact absurd hx (hno rfl)
          · rw [if_neg (decSpecialCall_ne _)] at hx
            exact absurd hx (hno (received_fnlInit _))

theorem decStep_movesOn (samples : Fin n → StackState) (ev : Fin n × DecEvent) :
    MovesOn C samples ev := by
  intro samples' hstep x hx
  obtain ⟨hs, rfl⟩ := decStep_eq hstep
  rw [Function.update_self] at hx ⊢
  have hentry := decEntry_received (C := C) (e := ev.2) hs
  have hno : ∀ {l : List Receipt}, l = (samples ev.1).received →
      l ≠ x :: (samples ev.1).received :=
    fun hl h => List.cons_ne_self x _ (h.symm.trans hl)
  unfold dec at hx ⊢
  dsimp only at hx ⊢
  split at hx
  · exact absurd hx (hno hentry)
  · rename_i hrun
    rw [if_neg hrun]
    cases hframes : (decEntry C (samples ev.1) ev.2).frames with
    | nil =>
      unfold decFrame at hx
      rw [hframes] at hx
      exact absurd hx (hno hentry)
    | cons f rest =>
      obtain ⟨-, heq⟩ | ⟨gs, -, heq⟩ := decFrame_cases (C := C) (e := ev.2) hframes
      · rw [heq] at hx
        exact absurd hx (hno hentry)
      · rw [heq] at hx ⊢
        have hset := (setCurpos_received (s := decEntry C (samples ev.1) ev.2)
          (some gs)).trans hentry
        rw [← hset] at hx
        obtain ⟨hret, hsite, hfr⟩ := doDec_movesOn (setCurpos_frames hframes _) hx
        refine ⟨hret, _, rest, hfr, ?_, ?_⟩
        · rw [hsite]
        · rw [hsite]

/-- **The frames are a call stack exactly when entries stay apart.**  In every state of a run from
fresh sample states they are one, and every value that is taken moves its statement on, if and
only if every call of `dec` meets the condition. -/
theorem frames_exact (C : FrameCode) (es : List (Fin n × DecEvent)) :
    (Visits (decStep C) (fun samples => ∀ i, StackRight C (samples i))
        (fun _ : Fin n => StackState.init) es ∧
      Along (decStep C) (MovesOn C) (fun _ : Fin n => StackState.init) es) ↔
      Along (decStep C) (EntriesApart C) (fun _ : Fin n => StackState.init) es :=
  visits_along_iff (fun _ _ _ h hg hx => decStep_inv h hg hx) (fun _ h i => (h i).right)
    (fun samples ev _ _ => decStep_movesOn samples ev) (fun _ _ _ hng _ => decStep_bad hng)
    fun _ => frameInv_init

/-- Two entries, each a call and a return: `1` is entered, calls the function `2` at the statement
    `0`, and returns at `1`. -/
def calledTwice : FrameCode where
  fnFirstGimple := fun fn => if fn = 1 then some 0 else some 1
  cpNextGimple := fun _ gs => some (gs + 1)
  params := fun _ => []
  hasGreturn := fun _ => true
  stmt := fun gs => if gs = 0 then .call false false [] else .ret

/-- One call of `dec` for the only state. -/
def decOnce : Fin 1 × DecEvent := (Fin.last 0, ⟨1, none, some 2, [], 0, false, some 7, none⟩)

/-- The second entry's call takes what the first entry returned. -/
theorem entry_takes_left_value :
    ¬ Visits (decStep calledTwice) (fun samples => ∀ i, StackRight calledTwice (samples i))
      (fun _ : Fin 1 => StackState.init) (List.replicate 5 decOnce) := by
  intro h
  obtain ⟨s, hx, x, hmem, hsite⟩ : ∃ s, exec (decStep calledTwice)
      (fun _ : Fin 1 => StackState.init) (List.replicate 5 decOnce) = some s ∧
        ∃ x ∈ (s 0).received, x.ret.site = none := ⟨_, rfl, _, List.mem_cons_self, rfl⟩
  have hright := (visits_iff_exec.mp h _ [] s (List.append_nil _).symm hx 0).received x hmem
  rw [hsite] at hright
  cases hright

end Srcinv.Analysis
