import Srcinv.Analysis.CallTrace

/-!
# Phases 5 and 6 do not depend on the order of the functions

What a function writes is a list of actions that does not depend on the state; only the values
that an indirect call goes through do.  In phase 6 all of phase 5 has been added, so each indirect
call reads the same values whatever the order was, and what phase 5 read before is among them.

What the thread has done before only decides whether a function stops: the log is told about a
reference that the phases do not know, and the first function of a thread has nothing to tell it.

* `exists_acts` — the actions of a function.
* `rounds_alike` — two rounds over the same actions, in any orders, end alike.
* `phases_order` — for any two orders of the functions phases 5 and 6 end in states with the same
  callees, callers and possible values; and where the functions of each file keep their order, both
  orders come back or none does.
-/

namespace Srcinv.Analysis

open Srcinv.Lib
open TargetField (Locals getComponentRefVnl getComponentRefVnl_atStmt)

variable (st : TraceStore)

/-! ## Actions -/

/-- What a function under a phase does to the lists. -/
inductive Act where
  | possible (vn value : Nat)
  | funcDecl (sn gs n : Nat)
  | possibleOf (sn gs vn : Nat)
  | internal (sn gs internalFn : Nat)

/-- An action as the code does it. -/
def Act.run : Act → TraceM Unit
  | .possible vn value => addPossible vn .func value 0
  | .funcDecl sn gs n => onCalls (callFuncDecl st.toFuncStore sn gs n)
  | .possibleOf sn gs vn => addPossibleCalleeOf st.toFuncStore sn gs vn
  | .internal sn gs internalFn => onCalls fun fns => some (internalCall sn gs internalFn fns)

/-- Actions one after the other. -/
def runActs : List Act → TraceState → Option TraceState
  | [], s => some s
  | a :: as, s => (a.run st s).bind fun s' => runActs as s'.2

theorem runActs_append (as bs : List Act) (s : TraceState) :
    runActs st (as ++ bs) s = (runActs st as s).bind (runActs st bs) := by
  induction as generalizing s with
  | nil => rfl
  | cons a as ih =>
    simp only [List.cons_append, runActs]
    cases a.run st s with
    | none => rfl
    | some s' => exact ih s'.2

/-- The result and the actions of `F` are the same in every state. -/
def Emits {α : Type} (F : TraceM α) (r : Option (α × List Act)) : Prop :=
  ∀ s, F s = r.bind fun out => (runActs st out.2 s).map fun s' => (out.1, s')

def Static {α : Type} (F : TraceM α) : Prop := ∃ r, Emits st F r

variable {st} {loc : Locals}

/-! ## Every function of the phases is static -/

theorem static_pure {α : Type} (a : α) : Static st (pure a : TraceM α) :=
  ⟨some (a, []), fun _ => rfl⟩

theorem static_failure {α : Type} : Static st (failure : TraceM α) := ⟨none, fun _ => rfl⟩

theorem static_liftM {α : Type} (o : Option α) : Static st (liftM o : TraceM α) := by
  cases o with
  | none => exact static_failure
  | some a => exact static_pure a

theorem emits_act (a : Act) : Emits st (a.run st) (some ((), [a])) := by
  intro s
  simp only [Option.bind_some, runActs]
  cases a.run st s with
  | none => rfl
  | some s' => rfl

theorem static_act (a : Act) : Static st (a.run st) := ⟨_, emits_act a⟩

theorem Static.bind {α β : Type} {F : TraceM α} {G : α → TraceM β} (hF : Static st F)
    (hG : ∀ a, Static st (G a)) : Static st (F >>= G) := by
  obtain ⟨r, hr⟩ := hF
  have hrun : ∀ s, (F >>= G) s = (F s).bind fun out => G out.1 out.2 := fun s => rfl
  cases r with
  | none => exact ⟨none, fun s => by rw [hrun, hr]; rfl⟩
  | some out =>
    obtain ⟨r', hr'⟩ := hG out.1
    cases r' with
    | none =>
      refine ⟨none, fun s => ?_⟩
      rw [hrun, hr]
      simp only [Option.bind_some, Option.bind_map, Function.comp_def, Option.bind_none]
      cases runActs st out.2 s with
      | none => rfl
      | some s' => exact hr' s'
    | some out' =>
      refine ⟨some (out'.1, out.2 ++ out'.2), fun s => ?_⟩
      rw [hrun, hr]
      simp only [Option.bind_some, runActs_append]
      cases runActs st out.2 s with
      | none => rfl
      | some s' => exact hr' s'

theorem Static.foldlM {α β : Type} {f : β → α → TraceM β} {as : List α}
    (hf : ∀ b, ∀ a ∈ as, Static st (f b a)) (b : β) : Static st (as.foldlM f b) := by
  induction as generalizing b with
  | nil => exact static_pure b
  | cons a as ih =>
    rw [List.foldlM_cons]
    exact (hf b a List.mem_cons_self).bind
      (ih fun b a' ha' => hf b a' (List.mem_cons_of_mem a ha'))

theorem Static.forM {α : Type} {f : α → TraceM Unit} {as : List α}
    (hf : ∀ a, Static st (f a)) : Static st (as.forM f) := by
  induction as with
  | nil => exact static_pure ()
  | cons a as ih =>
    show Static st (f a >>= fun _ => as.forM f)
    exact (hf a).bind fun _ => ih

theorem static_funcAssigned (n fsn : Nat) (op : Tree) :
    Static st (funcAssigned st loc n fsn op) := by
  induction op with
  | varDecl op =>
    refine (static_liftM _).bind fun vn => ?_
    cases vn with
    | none => exact static_pure ()
    | some vn => exact static_act (.possible vn (st.id n))
  | parmDecl op =>
    exact (static_liftM _).bind fun vn => static_act (.possible vn (st.id n))
  | componentRef op =>
    refine (static_liftM _).bind fun vnl => ?_
    cases vnl with
    | none => exact static_pure ()
    | some vnl => exact static_act (.possible vnl (st.id n))
  | arrayRef op0 ih => exact ih
  | memRef op0 offset ih => exact ih
  | functionDecl | addrExpr | ssaName | integerCst | other => exact static_pure ()

theorem static_funcUsedAt (sn : Nat) (tmpUa : UseAtList) :
    Static st (funcUsedAt st loc sn tmpUa) := by
  refine (static_liftM _).bind fun fsn => ?_
  split
  · split
    · split
      · exact static_failure
      · split
        · exact static_pure ()
        · exact static_funcAssigned sn fsn _
    · exact static_pure ()
  · exact static_pure ()

theorem static_callVarDecl (fsn gs var : Nat) : Static st (callVarDecl st fsn gs var) := by
  refine (static_liftM _).bind fun vn => ?_
  cases vn with
  | none => exact static_pure ()
  | some vn => exact static_act (.possibleOf fsn gs vn)

theorem static_callAddrExpr (sn gs : Nat) (op : Tree) : Static st (callAddrExpr st sn gs op) := by
  unfold callAddrExpr
  split
  · exact static_pure ()
  · exact static_act (.funcDecl sn gs _)

theorem static_callSsanameGassign (sn origGs : Nat) (rhs1 : Option Tree) :
    Static st (callSsanameGassign st loc sn origGs rhs1) := by
  unfold callSsanameGassign
  split
  · refine (static_liftM _).bind fun vnl => ?_
    cases vnl with
    | none => exact static_pure ()
    | some vnl => exact static_act (.possibleOf sn origGs vnl)
  · exact static_callVarDecl sn origGs _
  · exact static_callAddrExpr sn origGs _
  · exact static_pure ()

theorem static_ssanameVar (sn gs : Nat) (var : Tree) : Static st (ssanameVar st sn gs var) := by
  unfold ssanameVar
  split
  · exact static_callVarDecl sn gs _
  · exact static_pure ()

theorem static_ssanameEnd (sn gs callOp : Nat) (flag : Bool) (ssanameNode : List Nat)
    (after : Above (ssanameStart flag ssanameNode callOp)) :
    Static st (ssanameEnd st sn gs callOp flag ssanameNode after) := by
  unfold ssanameEnd
  split
  · exact static_pure _
  · refine Static.bind (static_ssanameVar sn gs _) fun _ => ?_
    split
    · exact static_failure
    · exact static_pure _

/-- By the measure that `call_ssaname` recurses on. -/
theorem static_callSsaname (sn gs callOp : Nat) (flag : Bool) (ssanameNode : List Nat) :
    Static st (callSsaname st loc sn gs callOp flag ssanameNode) := by
  induction callOp, flag, ssanameNode using callSsaname.induct st sn gs with
  | case1 callOp flag ssanameNode hfull =>
    rw [callSsaname, dif_pos hfull]
    exact static_failure
  | case2 callOp flag ssanameNode hfull hseen =>
    rw [callSsaname, dif_neg hfull, if_pos hseen]
    exact static_pure _
  | case3 callOp flag ssanameNode hfull hseen numOps lhs rhs1 hdef =>
    rw [callSsaname, dif_neg hfull, if_neg hseen, hdef]
    exact (static_callSsanameGassign sn gs rhs1).bind fun _ =>
      (static_pure _).bind fun after => static_ssanameEnd ..
  | case4 callOp flag ssanameNode hfull hseen args hdef ih =>
    rw [callSsaname, dif_neg hfull, if_neg hseen, hdef]
    refine Static.bind (Static.foldlM (fun l phiOp _ => ?_) _) fun after => static_ssanameEnd ..
    split
    · exact (ih l _).bind fun _ => static_pure _
    · exact static_pure _
  | case5 callOp flag ssanameNode hfull hseen hassign hphi =>
    rw [callSsaname, dif_neg hfull, if_neg hseen]
    dsimp only
    split
    · exact absurd ‹_› (hassign _ _ _)
    · exact absurd ‹_› (hphi _)
    · exact (static_pure _).bind fun after => static_ssanameEnd ..

theorem static_traceCallGs (sn gs : Nat) : Static st (traceCallGs st loc sn gs) := by
  unfold traceCallGs
  split
  · rename_i internalFn _
    exact static_act (.internal sn gs internalFn)
  · exact static_failure
  · exact static_callAddrExpr sn gs _
  · exact static_callVarDecl sn gs _
  · rename_i op _
    exact (static_callSsaname sn gs op false []).bind fun _ => static_pure ()
  · exact static_pure ()

/-! ## The thread -/

/-- A step stops in every state, or is another step. -/
def StopsOr {α : Type} (F G : TraceM α) : Prop := (∀ s, F s = none) ∨ F = G

theorem StopsOr.bind {α β : Type} {F F' : TraceM α} {G : α → TraceM β} (h : StopsOr F F') :
    StopsOr (F >>= G) (F' >>= G) := by
  obtain h | rfl := h
  · left
    intro s
    show (F s).bind (fun out => G out.1 out.2) = none
    rw [h s]
    rfl
  · exact .inr rfl

theorem StopsOr.then {α β : Type} {F : TraceM α} {G G' : α → TraceM β}
    (h : (∀ a, ∀ s, G a s = none) ∨ G = G') : StopsOr (F >>= G) (F >>= G') := by
  obtain h | rfl := h
  · left
    intro s
    show (F s).bind (fun out => G out.1 out.2) = none
    cases F s with
    | none => rfl
    | some out => exact h out.1 out.2
  · exact .inr rfl

theorem StopsOr.forM {α : Type} {f g : α → TraceM Unit} {as : List α}
    (h : ∀ a, StopsOr (f a) (g a)) : StopsOr (as.forM f) (as.forM g) := by
  induction as with
  | nil => exact .inr rfl
  | cons a as ih =>
    show StopsOr (f a >>= fun _ => as.forM f) (g a >>= fun _ => as.forM g)
    obtain hrest | hrest := ih
    · left
      intro s
      show ((f a) s).bind (fun out => as.forM f out.2) = none
      cases f a s with
      | none => rfl
      | some out => exact hrest out.2
    · rw [hrest]
      exact (h a).bind

/-- What is assigned does not depend on the thread, unless this stops. -/
theorem funcAssigned_stopsOr (hloc : loc.AtStmt) (loc' : Locals) (n fsn : Nat) (op : Tree) :
    StopsOr (funcAssigned st loc' n fsn op) (funcAssigned st loc n fsn op) := by
  induction op with
  | componentRef op =>
    refine StopsOr.bind ?_
    obtain h | h := getComponentRefVnl_atStmt hloc loc' (st.componentRef op)
    · left
      intro s
      rw [h]
      rfl
    · exact .inr (by rw [h])
  | arrayRef op0 ih => exact ih
  | memRef op0 offset ih => exact ih
  | _ => exact .inr rfl

theorem funcUsedAt_stopsOr (hloc : loc.AtStmt) (loc' : Locals) (sn : Nat) (tmpUa : UseAtList) :
    StopsOr (funcUsedAt st loc' sn tmpUa) (funcUsedAt st loc sn tmpUa) := by
  unfold funcUsedAt
  cases hfsn : st.byId tmpUa.funcId with
  | none => exact .inl fun s => rfl
  | some fsn =>
    show StopsOr (if _ then _ else _) (if _ then _ else _)
    split
    · split
      · split
        · exact .inr rfl
        · split
          · exact .inr rfl
          · exact funcAssigned_stopsOr hloc loc' sn fsn _
      · exact .inr rfl
    · exact .inr rfl

variable (st) in
/-- The thread-local variables when the function has been traced. -/
def traced (sn : Nat) (loc : Locals) : Locals :=
  ⟨some sn, (st.body sn).stmts.getLast?.or loc.curGimple⟩

/-- The trace of the statements of a function, each with the thread-local variables set to it. -/
def traceStmts (st : TraceStore) (sn : Nat) : TraceM Unit :=
  (st.body sn).stmts.forM fun gs => traceCallGs st ⟨some sn, some gs⟩ sn gs

/-- The trace of a function is that of its statements. -/
theorem doTraceCall_eq (sn : Nat) : doTraceCall st loc sn = (do
    traceStmts st sn
    pure (traced st sn loc)) := by
  have hloop : ∀ (stmts : List Nat) (loc : Locals), loc.curFsn = some sn →
      stmts.foldlM (fun loc gs => do
        let loc := { loc with curGimple := some gs }
        traceCallGs st loc sn gs
        pure loc) loc = (do
          stmts.forM fun gs => traceCallGs st ⟨some sn, some gs⟩ sn gs
          pure ⟨some sn, stmts.getLast?.or loc.curGimple⟩ : TraceM Locals) := by
    intro stmts
    induction stmts with
    | nil =>
      rintro ⟨_, gimple⟩ rfl
      rfl
    | cons gs stmts ih =>
      rintro ⟨_, gimple⟩ rfl
      have hcons : ∀ f : Nat → TraceM Unit,
          (gs :: stmts).forM f = f gs >>= fun _ => stmts.forM f := fun _ => rfl
      rw [List.foldlM_cons, hcons]
      simp only [bind_assoc, pure_bind]
      refine congrArg (_ >>= ·) (funext fun _ => ?_)
      rw [ih _ rfl, List.getLast?_cons]
      cases stmts.getLast? <;> rfl
  exact hloop _ _ rfl

/-- What a function does when its thread has come to a statement. -/
def funcTrace (st : TraceStore) (n : st.Traced) : TraceM Unit := do
  doFuncUsedAt st ⟨some n.1, some 0⟩ n.1
  traceStmts st n.1

theorem static_funcTrace (n : st.Traced) : Static st (funcTrace st n) :=
  (Static.forM (static_funcUsedAt n.1)).bind fun _ =>
    Static.forM fun gs => static_traceCallGs n.1 gs

/-- The function does that, or stops. -/
theorem doPhase5Func_stopsOr (n : st.Traced) (loc : Locals) :
    StopsOr (doPhase5Func st loc n) (funcTrace st n >>= fun _ => pure (traced st n.1 loc)) := by
  have hat : (⟨some n.1, some 0⟩ : Locals).AtStmt := ⟨rfl, rfl⟩
  unfold doPhase5Func funcTrace
  rw [doTraceCall_eq, bind_assoc]
  exact (StopsOr.forM (funcUsedAt_stopsOr hat loc n.1)).bind

/-- **The actions of a function**, by the thread-local variables that it finds; where there are any
    they are always the same. -/
theorem exists_acts (n : st.Traced) : ∃ acts : Locals → Option (List Act),
    (∀ loc loc' as as', acts loc = some as → acts loc' = some as' → as = as') ∧
      ∀ loc, Emits st (doPhase5Func st loc n)
        ((acts loc).map fun as => (traced st n.1 loc, as)) := by
  classical
  obtain ⟨r, hr⟩ := static_funcTrace n
  refine ⟨fun loc => if ∀ s, doPhase5Func st loc n s = none then none else r.map Prod.snd, ?_, ?_⟩
  · intro loc loc' as as' has has'
    dsimp only at has has'
    split at has
    · cases has
    · split at has'
      · cases has'
      · rw [has] at has'
        exact Option.some.inj has'
  · intro loc s
    dsimp only
    split
    · rename_i hstop
      exact hstop s
    · rename_i hgo
      rw [(doPhase5Func_stopsOr n loc).resolve_left hgo]
      show (funcTrace st n s).bind (fun out => some (traced st n.1 loc, out.2)) = _
      rw [hr s]
      cases r with
      | none => rfl
      | some out =>
        simp only [Option.bind_some, Option.map_some]
        cases runActs st out.2 s with
        | none => rfl
        | some s' => rfl

/-! ## What an action adds -/

/-- The two lists of a `func_node`. -/
inductive Side where
  | callees
  | callers

/-- A function is in one of the two lists of `q`. -/
def Has (fns : FuncNodes) : Side × Nat × Nat × Nat → Prop
  | (.callees, q, value, valueFlag) => Listed (fns q).callees value valueFlag
  | (.callers, q, value, valueFlag) => Listed (fns q).callers value valueFlag

/-- The lists gain the entries in `D` and keep what they have. -/
def Grows (D : Side × Nat × Nat × Nat → Prop) (fns fns' : FuncNodes) : Prop :=
  ∀ x, Has fns' x ↔ Has fns x ∨ D x

theorem grows_accumulates : Accumulates Grows where
  refl fns x := by simp only [or_false]
  trans D D' fns fns₁ fns₂ h h' x := by rw [h' x, h x, or_assoc]

/-- The entries of a call: the callee at the caller, and the caller at the functions in `T`. -/
def callEntries (st : FuncStore) (sn value valueFlag : Nat) (T : Nat → Prop) :
    Side × Nat × Nat × Nat → Prop
  | (.callees, q, v, f) => q = sn ∧ v = value ∧ f = valueFlag
  | (.callers, q, v, f) => T q ∧ v = st.id sn ∧ f = 0

theorem AddsCaller.grows {st : FuncStore} {sn value valueFlag «where» : Nat} {bodyMissing : Bool}
    {type : Int} {T : Nat → Prop} {fns fns' : FuncNodes}
    (h : AddsCaller st sn T (noteCallee sn value valueFlag bodyMissing type «where» fns) fns') :
    Grows (callEntries st sn value valueFlag T) fns fns' := by
  rintro ⟨_ | _, q, v, f⟩
  · show Listed (fns' q).callees v f ↔ _
    rw [h.callees, listed_noteCallee]
    rfl
  · show Listed (fns' q).callers v f ↔ _
    rw [h.listed_callers, noteCallee_callers]
    rfl

/-- A call of the sinode can be noted. -/
def Resolvable (st : FuncStore) (p : Nat) : Prop := HasBody st p ∨ AliasEnds st p

theorem addCaller_isSome_iff {st : FuncStore} {p caller : Nat} {fns : FuncNodes} :
    (addCaller st (some (aliasAddCaller st)) (some p) caller fns).isSome ↔ Resolvable st p := by
  by_cases hb : HasBody st p
  · rw [addCaller, if_pos hb]
    exact ⟨fun _ => Or.inl hb, fun _ => rfl⟩
  · rw [addCaller_isSome hb]
    exact ⟨Or.inr, fun h => h.resolve_left hb⟩

/-- The functions among the values of each variable. -/
abbrev FuncValues := Nat → Nat → Prop

/-- The functions among the possible values. -/
def funcValues (possible : Nat → List PossibleList) : FuncValues :=
  fun vn value => ∃ e ∈ possible vn, e.valueFlag = .func ∧ e.value = value

/-- The action comes back when the values are those in `V`. -/
def Act.Ok (st : FuncStore) (V : FuncValues) : Act → Prop
  | .possible .. => True
  | .funcDecl _ _ n => ∃ r, getFuncSinode st.toSinodeStore (st.resfile n) (st.decl n) true =
        some r ∧
      ∀ p, r = some p → Resolvable st p
  | .possibleOf _ _ vn => ∀ value, V vn value → ∃ p, st.byId value = some p ∧ Resolvable st p
  | .internal .. => True

/-- The entries that the action adds when the values are those in `V`. -/
def Act.Adds (st : FuncStore) (V : FuncValues) : Act → Side × Nat × Nat × Nat → Prop
  | .possible .. => fun _ => False
  | .funcDecl sn _ n => fun x =>
    ∃ r, getFuncSinode st.toSinodeStore (st.resfile n) (st.decl n) true = some r ∧
      match r with
      | none => callEntries st sn n 1 (fun _ => False) x
      | some p => callEntries st sn (st.id p) 0 (Resolves st p) x
  | .possibleOf sn _ vn => fun x => ∃ value, V vn value ∧ ∃ p, st.byId value = some p ∧
      callEntries st sn (st.id p) 0 (Resolves st p) x
  | .internal sn _ internalFn => callEntries st sn internalFn 0 fun _ => False

/-- The action makes the variable have the value. -/
def Act.addTo (possible : Nat → List PossibleList) : Act → Nat → List PossibleList
  | .possible vn value => Function.update possible vn (addPossibleTo (possible vn) .func value 0)
  | .funcDecl .. | .possibleOf .. | .internal .. => possible

variable {V V' : FuncValues} {a : Act}

theorem Act.Ok.anti (h : a.Ok st.toFuncStore V') (hV : ∀ vn value, V vn value → V' vn value) :
    a.Ok st.toFuncStore V := by
  cases a with
  | possibleOf sn gs vn => exact fun value hv => h value (hV vn value hv)
  | possible | funcDecl | internal => exact h

theorem Act.Adds.mono {x : Side × Nat × Nat × Nat} (h : a.Adds st.toFuncStore V x)
    (hV : ∀ vn value, V vn value → V' vn value) : a.Adds st.toFuncStore V' x := by
  cases a with
  | possibleOf sn gs vn =>
    obtain ⟨value, hv, h⟩ := h
    exact ⟨value, hV vn value hv, h⟩
  | possible | funcDecl | internal => exact h

theorem callFuncDecl_grows {st : FuncStore} {sn gs n : Nat} (fns : FuncNodes)
    (h : (Act.funcDecl sn gs n).Ok st V) : ∃ fns', callFuncDecl st sn gs n fns = some fns' ∧
      Grows ((Act.funcDecl sn gs n).Adds st V) fns fns' := by
  obtain ⟨r, hr, hok⟩ := h
  simp only [callFuncDecl, Act.Adds, hr, Option.bind_some, Option.some.injEq, exists_eq_left']
  cases r with
  | none => exact ⟨_, rfl, AddsCaller.grows AddsCaller.refl⟩
  | some p =>
    obtain ⟨fns', hx, hadds⟩ := addCaller_of_ends (hok p rfl) sn _
    exact ⟨fns', hx, hadds.grows⟩

theorem addPossibleCallee_grows {st : FuncStore} {sn gs vn : Nat}
    {possible : Nat → List PossibleList} (fns : FuncNodes)
    (h : (Act.possibleOf sn gs vn).Ok st (funcValues possible)) :
    ∃ fns', addPossibleCallee st sn gs (possible vn) fns = some fns' ∧
      Grows ((Act.possibleOf sn gs vn).Adds st (funcValues possible)) fns fns' := by
  have hstep : ∀ tmpPv ∈ possible vn, ∀ fns, ∃ fns',
      (if tmpPv.valueFlag ≠ .func then some fns
        else possibleCallee st sn gs tmpPv.value fns) = some fns' ∧
        Grows (fun x => tmpPv.valueFlag = .func ∧ ∃ p, st.byId tmpPv.value = some p ∧
          callEntries st sn (st.id p) 0 (Resolves st p) x) fns fns' := by
    intro tmpPv hmem fns
    by_cases hflag : tmpPv.valueFlag = .func
    · obtain ⟨p, hp, hres⟩ := h tmpPv.value ⟨tmpPv, hmem, hflag, rfl⟩
      obtain ⟨fns', hx, hadds⟩ := addCaller_of_ends hres sn
        (addCallee st sn p gs SI_TYPE_DF_GIMPLE fns)
      refine ⟨fns', ?_, ?_⟩
      · rw [if_neg (not_not.mpr hflag), possibleCallee, hp]
        exact hx
      · simp only [hflag, hp, true_and, Option.some.injEq, exists_eq_left']
        exact hadds.grows
    · refine ⟨fns, if_pos hflag, fun x => ?_⟩
      simp only [hflag, false_and, or_false]
  obtain ⟨fns', hx, hgrows⟩ := foldlM_accumulates grows_accumulates (possible vn) hstep fns
  refine ⟨fns', hx, fun x => (hgrows x).trans (or_congr_right ?_)⟩
  constructor
  · rintro ⟨e, hmem, hflag, hp⟩
    exact ⟨e.value, ⟨e, hmem, hflag, rfl⟩, hp⟩
  · rintro ⟨value, ⟨e, hmem, hflag, rfl⟩, hp⟩
    exact ⟨e, hmem, hflag, hp⟩

/-- **What an action does**, as long as it comes back. -/
theorem Act.run_of_ok (s : TraceState) (h : a.Ok st.toFuncStore (funcValues s.possible)) :
    ∃ s', a.run st s = some ((), s') ∧ s'.possible = a.addTo s.possible ∧
      Grows (a.Adds st.toFuncStore (funcValues s.possible)) s.fns s'.fns := by
  cases a with
  | possible vn value => exact ⟨_, rfl, rfl, grows_accumulates.refl s.fns⟩
  | funcDecl sn gs n =>
    obtain ⟨fns', hx, hgrows⟩ := callFuncDecl_grows s.fns h
    exact ⟨{ s with fns := fns' }, by simp only [Act.run, onCalls, hx, Option.map_some],
      rfl, hgrows⟩
  | possibleOf sn gs vn =>
    obtain ⟨fns', hx, hgrows⟩ := addPossibleCallee_grows s.fns h
    exact ⟨{ s with fns := fns' },
      by simp only [Act.run, addPossibleCalleeOf, onCalls, hx, Option.map_some], rfl, hgrows⟩
  | internal sn gs internalFn =>
    exact ⟨_, rfl, rfl, AddsCaller.grows AddsCaller.refl⟩

theorem onCalls_some {f : FuncNodes → Option FuncNodes} {s : TraceState} {out : Unit × TraceState}
    (h : onCalls f s = some out) : ∃ fns', f s.fns = some fns' := by
  obtain ⟨fns', hx, -⟩ := Option.map_eq_some_iff.mp h
  exact ⟨fns', hx⟩

theorem Act.ok_of_run {s : TraceState} {out : Unit × TraceState} (h : a.run st s = some out) :
    a.Ok st.toFuncStore (funcValues s.possible) := by
  cases a with
  | possible | internal => exact trivial
  | funcDecl sn gs n =>
    obtain ⟨fns', hx⟩ := onCalls_some h
    obtain ⟨r, hr, hx⟩ := Option.bind_eq_some_iff.mp hx
    refine ⟨r, hr, ?_⟩
    rintro p rfl
    exact addCaller_isSome_iff.mp (Option.isSome_iff_exists.mpr ⟨fns', hx⟩)
  | possibleOf sn gs vn =>
    obtain ⟨fns', hx⟩ := onCalls_some h
    rintro value ⟨e, hmem, hflag, rfl⟩
    obtain ⟨s₁, s₂, hx⟩ := foldlM_some hx e hmem
    rw [if_neg (not_not.mpr hflag), possibleCallee] at hx
    split at hx
    · cases hx
    · rename_i p hp
      exact ⟨p, hp, addCaller_isSome_iff.mp (Option.isSome_iff_exists.mpr ⟨s₂, hx⟩)⟩

/-! ## Possible values over a list of actions -/

/-- The possible values after the actions. -/
def possibleAfter (as : List Act) (possible : Nat → List PossibleList) :
    Nat → List PossibleList :=
  as.foldl Act.addTo possible

theorem mem_addPossibleTo (head : List PossibleList) (valFlag : ValueFlag) (value extra : Nat)
    (e : PossibleList) : e ∈ addPossibleTo head valFlag value extra ↔
      e ∈ head ∨ (e = ⟨valFlag, value, extra⟩ ∧ ∀ e' ∈ head, e'.value ≠ value) := by
  unfold addPossibleTo possibleListFind
  split
  · rename_i e' hfind
    have hmem := List.mem_of_find?_eq_some hfind
    have hval : e'.value = value := by simpa using List.find?_some hfind
    constructor
    · exact Or.inl
    · rintro (h | ⟨-, hno⟩)
      · exact h
      · exact absurd hval (hno e' hmem)
  · rename_i hnone
    have hno : ∀ e' ∈ head, e'.value ≠ value := by simpa using List.find?_eq_none.mp hnone
    rw [List.mem_append, List.mem_singleton]
    exact or_congr_right ⟨fun h => ⟨h, hno⟩, And.left⟩

/-- An action adds nothing but one function at one variable. -/
theorem mem_addTo {possible : Nat → List PossibleList} {vn : Nat} {e : PossibleList} :
    e ∈ a.addTo possible vn ↔ e ∈ possible vn ∨
      (e = ⟨.func, e.value, 0⟩ ∧ a = .possible vn e.value ∧
        ∀ e' ∈ possible vn, e'.value ≠ e.value) := by
  cases a with
  | funcDecl | possibleOf | internal =>
    simp only [Act.addTo, reduceCtorEq, false_and, and_false, or_false]
  | possible vn' value =>
    simp only [Act.addTo, Function.update_apply, Act.possible.injEq]
    split
    · rename_i hvn
      subst hvn
      rw [mem_addPossibleTo]
      refine or_congr_right ⟨?_, ?_⟩
      · rintro ⟨rfl, hno⟩
        exact ⟨rfl, ⟨rfl, rfl⟩, hno⟩
      · rintro ⟨he, ⟨-, hval⟩, hno⟩
        rw [hval]
        exact ⟨he, hno⟩
    · rename_i hvn
      simp only [Ne.symm hvn, false_and, and_false, or_false]

/-- **The possible values after a list of actions** do not depend on its order. -/
theorem mem_possibleAfter (as : List Act) {possible : Nat → List PossibleList} {vn : Nat}
    {e : PossibleList} : e ∈ possibleAfter as possible vn ↔ e ∈ possible vn ∨
      (e = ⟨.func, e.value, 0⟩ ∧ .possible vn e.value ∈ as ∧
        ∀ e' ∈ possible vn, e'.value ≠ e.value) := by
  induction as generalizing possible with
  | nil => simp only [possibleAfter, List.foldl_nil, List.not_mem_nil,
      false_and, and_false, or_false]
  | cons a as ih =>
    show e ∈ possibleAfter as (a.addTo possible) vn ↔ _
    rw [ih, mem_addTo]
    constructor
    · rintro ((h | ⟨he, ha, hno⟩) | ⟨he, has, hno⟩)
      · exact Or.inl h
      · exact Or.inr ⟨he, List.mem_cons.mpr (Or.inl ha.symm), hno⟩
      · refine Or.inr ⟨he, List.mem_cons_of_mem a has, fun e' he' => hno e' ?_⟩
        exact mem_addTo.mpr (Or.inl he')
    · rintro (h | ⟨he, has, hno⟩)
      · exact Or.inl (Or.inl h)
      · by_cases ha : a = .possible vn e.value
        · exact Or.inl (Or.inr ⟨he, ha, hno⟩)
        · refine Or.inr ⟨he, (List.mem_cons.mp has).resolve_left (Ne.symm ha), fun e' he' => ?_⟩
          obtain he' | ⟨-, ha', -⟩ := mem_addTo.mp he'
          · exact hno e' he'
          · intro hval
            rw [hval] at ha'
            exact ha ha'

/-- Values are only added. -/
theorem funcValues_mono (as : List Act) {possible : Nat → List PossibleList} {vn value : Nat}
    (h : funcValues possible vn value) : funcValues (possibleAfter as possible) vn value := by
  obtain ⟨e, he, h⟩ := h
  exact ⟨e, (mem_possibleAfter as).mpr (Or.inl he), h⟩

/-- After the actions each value that they add is there with some flag. -/
theorem exists_value (as : List Act) (possible : Nat → List PossibleList) {vn value : Nat}
    (h : .possible vn value ∈ as) : ∃ e ∈ possibleAfter as possible vn, e.value = value := by
  by_cases hold : ∃ e ∈ possible vn, e.value = value
  · obtain ⟨e, he, hval⟩ := hold
    exact ⟨e, (mem_possibleAfter as).mpr (Or.inl he), hval⟩
  · refine ⟨⟨.func, value, 0⟩, (mem_possibleAfter as).mpr (Or.inr ⟨rfl, h, ?_⟩), rfl⟩
    exact fun e' he' hval => hold ⟨e', he', hval⟩

/-- A second round over the same actions adds no value. -/
theorem mem_possibleAfter_again {as bs : List Act} (hab : ∀ a, a ∈ bs → a ∈ as)
    {possible : Nat → List PossibleList} {vn : Nat} {e : PossibleList} :
    e ∈ possibleAfter bs (possibleAfter as possible) vn ↔ e ∈ possibleAfter as possible vn := by
  rw [mem_possibleAfter bs]
  constructor
  · rintro (h | ⟨-, hb, hno⟩)
    · exact h
    · obtain ⟨e', he', hval⟩ := exists_value as possible (hab _ hb)
      exact absurd hval (hno e' he')
  · exact Or.inl

/-! ## Lists of actions -/

theorem runActs_possible {as : List Act} {s s' : TraceState} (h : runActs st as s = some s') :
    s'.possible = possibleAfter as s.possible := by
  induction as generalizing s with
  | nil =>
    cases h
    rfl
  | cons a as ih =>
    obtain ⟨⟨u, s₁⟩, ha, has⟩ := Option.bind_eq_some_iff.mp h
    obtain ⟨s₂, hrun, hposs, -⟩ := Act.run_of_ok s (Act.ok_of_run ha)
    cases ha.symm.trans hrun
    rw [ih has, hposs]
    rfl

/-- Each action of a list that comes back could read what was there at the start. -/
theorem ok_of_runActs {as : List Act} {s s' : TraceState} (h : runActs st as s = some s') :
    ∀ a ∈ as, a.Ok st.toFuncStore (funcValues s.possible) := by
  induction as generalizing s with
  | nil =>
    intro a ha
    cases ha
  | cons b as ih =>
    obtain ⟨⟨u, s₁⟩, hb, has⟩ := Option.bind_eq_some_iff.mp h
    obtain ⟨s₂, hrun, hposs, -⟩ := Act.run_of_ok s (Act.ok_of_run hb)
    cases hb.symm.trans hrun
    intro a ha
    obtain rfl | ha := List.mem_cons.mp ha
    · exact Act.ok_of_run hb
    · refine (ih has a ha).anti fun vn value hv => ?_
      rw [hposs]
      exact funcValues_mono [b] hv

/-- A list comes back when its actions could read what is there at the end. -/
theorem runActs_of_ok {as : List Act} {s : TraceState}
    (h : ∀ a ∈ as, a.Ok st.toFuncStore (funcValues (possibleAfter as s.possible))) :
    ∃ s', runActs st as s = some s' := by
  induction as generalizing s with
  | nil => exact ⟨s, rfl⟩
  | cons b as ih =>
    obtain ⟨s₁, hrun, hposs, -⟩ := Act.run_of_ok (a := b) s
      ((h b List.mem_cons_self).anti fun vn value hv => funcValues_mono (b :: as) hv)
    obtain ⟨s', hx⟩ := ih (s := s₁) fun a ha => by
      rw [hposs]
      exact h a (List.mem_cons_of_mem b ha)
    exact ⟨s', by rw [runActs, hrun]; exact hx⟩

/-- What a list adds is between what it adds with the values at its start and at its end. -/
theorem runActs_grows {as : List Act} {s s' : TraceState} (h : runActs st as s = some s')
    (x : Side × Nat × Nat × Nat) :
    (Has s'.fns x → Has s.fns x ∨ ∃ a ∈ as, a.Adds st.toFuncStore (funcValues s'.possible) x) ∧
      ((Has s.fns x ∨ ∃ a ∈ as, a.Adds st.toFuncStore (funcValues s.possible) x) →
        Has s'.fns x) := by
  induction as generalizing s with
  | nil =>
    cases h
    exact ⟨Or.inl, fun h => h.elim id fun ⟨a, ha, _⟩ => (by cases ha)⟩
  | cons b as ih =>
    obtain ⟨⟨u, s₁⟩, hb, has⟩ := Option.bind_eq_some_iff.mp h
    obtain ⟨s₂, hrun, hposs, hgrows⟩ := Act.run_of_ok s (Act.ok_of_run hb)
    cases hb.symm.trans hrun
    have hlast := runActs_possible has
    have hmono : ∀ vn value, funcValues s.possible vn value → funcValues s₁.possible vn value := by
      intro vn value hv
      rw [hposs]
      exact funcValues_mono [b] hv
    have hmono' : ∀ vn value, funcValues s₁.possible vn value →
        funcValues s'.possible vn value := by
      intro vn value hv
      rw [hlast]
      exact funcValues_mono as hv
    constructor
    · intro hx
      obtain hx | ⟨a, ha, hadds⟩ := (ih has).1 hx
      · obtain hx | hadds := (hgrows x).mp hx
        · exact Or.inl hx
        · refine Or.inr ⟨b, List.mem_cons_self, hadds.mono fun vn value hv => ?_⟩
          exact hmono' vn value (hmono vn value hv)
      · exact Or.inr ⟨a, List.mem_cons_of_mem b ha, hadds⟩
    · rintro (hx | ⟨a, ha, hadds⟩)
      · exact (ih has).2 (Or.inl ((hgrows x).mpr (Or.inl hx)))
      · obtain rfl | ha := List.mem_cons.mp ha
        · exact (ih has).2 (Or.inl ((hgrows x).mpr (Or.inr hadds)))
        · exact (ih has).2 (Or.inr ⟨a, ha, hadds.mono hmono⟩)

/-! ## Two rounds -/

/-- The same functions in all call lists, and the same possible values. -/
structure SameGraph (s s' : TraceState) : Prop where
  callees : ∀ q value valueFlag,
    Listed (s.fns q).callees value valueFlag ↔ Listed (s'.fns q).callees value valueFlag
  callers : ∀ q value valueFlag,
    Listed (s.fns q).callers value valueFlag ↔ Listed (s'.fns q).callers value valueFlag
  possible : ∀ vn valueFlag value,
    (∃ e ∈ s.possible vn, e.valueFlag = valueFlag ∧ e.value = value) ↔
      ∃ e ∈ s'.possible vn, e.valueFlag = valueFlag ∧ e.value = value

theorem sameGraph_of_has {s s' : TraceState} (h : ∀ x, Has s.fns x ↔ Has s'.fns x)
    (hp : ∀ vn e, e ∈ s.possible vn ↔ e ∈ s'.possible vn) : SameGraph s s' where
  callees q value valueFlag := h (.callees, q, value, valueFlag)
  callers q value valueFlag := h (.callers, q, value, valueFlag)
  possible vn _ _ := exists_congr fun e => and_congr_left fun _ => hp vn e

/-- **What two rounds over the same actions end in.** -/
theorem runActs_rounds {as bs : List Act} (hab : ∀ a, a ∈ bs ↔ a ∈ as) (s : TraceState) :
    ((runActs st (as ++ bs) s).isSome ↔
      ∀ a ∈ as, a.Ok st.toFuncStore (funcValues (possibleAfter as s.possible))) ∧
    ∀ s', runActs st (as ++ bs) s = some s' →
      (∀ x, Has s'.fns x ↔ Has s.fns x ∨
        ∃ a ∈ as, a.Adds st.toFuncStore (funcValues (possibleAfter as s.possible)) x) ∧
      ∀ vn e, e ∈ s'.possible vn ↔ e ∈ possibleAfter as s.possible vn := by
  have hagain : ∀ vn e, e ∈ possibleAfter bs (possibleAfter as s.possible) vn ↔
      e ∈ possibleAfter as s.possible vn :=
    fun vn e => mem_possibleAfter_again fun a ha => (hab a).mp ha
  have hvals : funcValues (possibleAfter bs (possibleAfter as s.possible)) =
      funcValues (possibleAfter as s.possible) := by
    funext vn value
    exact propext (exists_congr fun e => and_congr_left fun _ => hagain vn e)
  rw [runActs_append]
  refine ⟨⟨fun h => ?_, fun h => ?_⟩, fun s' h => ?_⟩
  · obtain ⟨s', h⟩ := Option.isSome_iff_exists.mp h
    obtain ⟨s₁, has, hbs⟩ := Option.bind_eq_some_iff.mp h
    intro a ha
    rw [← runActs_possible has]
    exact ok_of_runActs hbs a ((hab a).mpr ha)
  · obtain ⟨s₁, has⟩ := runActs_of_ok h
    have hposs := runActs_possible has
    obtain ⟨s', hbs⟩ : ∃ s', runActs st bs s₁ = some s' := by
      refine runActs_of_ok fun b hb => ?_
      rw [hposs, hvals]
      exact h b ((hab b).mp hb)
    rw [has]
    exact Option.isSome_iff_exists.mpr ⟨s', hbs⟩
  · obtain ⟨s₁, has, hbs⟩ := Option.bind_eq_some_iff.mp h
    have hposs := runActs_possible has
    have hposs' := runActs_possible hbs
    rw [hposs] at hposs'
    refine ⟨fun x => ⟨fun hx => ?_, ?_⟩, fun vn e => by rw [hposs']; exact hagain vn e⟩
    · obtain hx | ⟨b, hb, hadds⟩ := (runActs_grows hbs x).1 hx
      · rw [← hposs]
        exact (runActs_grows has x).1 hx
      · rw [hposs', hvals] at hadds
        exact Or.inr ⟨b, (hab b).mp hb, hadds⟩
    · rintro (hx | ⟨a, ha, hadds⟩)
      · exact (runActs_grows hbs x).2 (Or.inl ((runActs_grows has x).2 (Or.inl hx)))
      · rw [← hposs] at hadds
        exact (runActs_grows hbs x).2 (Or.inr ⟨a, (hab a).mpr ha, hadds⟩)

/-- **Two rounds in one order and two in another end alike**, when all rounds have the same
    actions. -/
theorem rounds_alike {as bs as' bs' : List Act} (hbs : ∀ a, a ∈ bs ↔ a ∈ as)
    (has' : ∀ a, a ∈ as' ↔ a ∈ as) (hbs' : ∀ a, a ∈ bs' ↔ a ∈ as) (s : TraceState) :
    ((runActs st (as ++ bs) s).isSome ↔ (runActs st (as' ++ bs') s).isSome) ∧
      ∀ t t', runActs st (as ++ bs) s = some t → runActs st (as' ++ bs') s = some t' →
        SameGraph t t' := by
  have hposs : ∀ vn e, e ∈ possibleAfter as s.possible vn ↔ e ∈ possibleAfter as' s.possible vn :=
    fun vn e => by rw [mem_possibleAfter, mem_possibleAfter, has']
  have hvals : funcValues (possibleAfter as s.possible) =
      funcValues (possibleAfter as' s.possible) := by
    funext vn value
    exact propext (exists_congr fun e => and_congr_left fun _ => hposs vn e)
  have hrounds := @runActs_rounds st as bs hbs s
  have hrounds' := @runActs_rounds st as' bs' (fun a => (hbs' a).trans (has' a).symm) s
  refine ⟨?_, fun t t' ht ht' => ?_⟩
  · rw [hrounds.1, hrounds'.1, hvals]
    exact forall_congr' fun a => imp_congr_left (has' a).symm
  · obtain ⟨hhas, hp⟩ := hrounds.2 t ht
    obtain ⟨hhas', hp'⟩ := hrounds'.2 t' ht'
    refine sameGraph_of_has (fun x => ?_) fun vn e => by rw [hp, hp', hposs]
    rw [hhas, hhas', hvals]
    exact or_congr_right (exists_congr fun a => and_congr_left fun _ => (has' a).symm)

/-! ## Orders of the functions -/

section Orders

variable (st)

/-- The functions in their order, each with the thread-local variables that it finds. -/
def withLocals (locals : Nat → Locals) : List (Nat × st.Traced) → List (Locals × st.Traced)
  | [] => []
  | n :: order => (locals n.1, n.2) ::
    withLocals (Function.update locals n.1 (traced st n.2.1 (locals n.1))) order

variable {st}

/-- What a function finds depends on the functions of its own file. -/
theorem withLocals_congr {b : Nat} {locals locals' : Nat → Locals} {order : List (Nat × st.Traced)}
    (horder : ∀ n ∈ order, n.1 = b) (h : locals b = locals' b) :
    withLocals st locals order = withLocals st locals' order := by
  induction order generalizing locals locals' with
  | nil => rfl
  | cons n order ih =>
    have hn : n.1 = b := horder n List.mem_cons_self
    subst hn
    rw [withLocals, withLocals, h]
    refine congrArg _ (ih (fun m hm => horder m (List.mem_cons_of_mem n hm)) ?_)
    rw [Function.update_self, Function.update_self]

/-- The functions of a file find what they find when no other file is processed. -/
theorem mem_withLocals {x : Locals × st.Traced} {locals : Nat → Locals}
    {order : List (Nat × st.Traced)} : x ∈ withLocals st locals order ↔
      ∃ b, x ∈ withLocals st locals (order.filter fun n => n.1 = b) := by
  induction order generalizing locals with
  | nil => simp [withLocals]
  | cons n order ih =>
    rw [withLocals, List.mem_cons, ih]
    constructor
    · rintro (rfl | ⟨b, hx⟩)
      · refine ⟨n.1, ?_⟩
        rw [List.filter_cons_of_pos (by simp), withLocals]
        exact List.mem_cons_self
      · refine ⟨b, ?_⟩
        by_cases hb : n.1 = b
        · rw [List.filter_cons_of_pos (by simpa using hb), withLocals]
          exact List.mem_cons_of_mem _ hx
        · rw [List.filter_cons_of_neg (by simpa using hb)]
          rwa [withLocals_congr (b := b) (fun m hm => by simpa using (List.mem_filter.mp hm).2)
            (Function.update_of_ne (Ne.symm hb) _ _)] at hx
    · rintro ⟨b, hx⟩
      by_cases hb : n.1 = b
      · rw [List.filter_cons_of_pos (by simpa using hb), withLocals] at hx
        obtain rfl | hx := List.mem_cons.mp hx
        · exact .inl rfl
        · exact .inr ⟨b, hx⟩
      · rw [List.filter_cons_of_neg (by simpa using hb)] at hx
        refine .inr ⟨b, ?_⟩
        rwa [withLocals_congr (b := b) (fun m hm => by simpa using (List.mem_filter.mp hm).2)
          (Function.update_of_ne (Ne.symm hb) _ _)]

theorem exists_withLocals {n : Nat × st.Traced} {locals : Nat → Locals}
    {order : List (Nat × st.Traced)} (hn : n ∈ order) :
    ∃ loc, (loc, n.2) ∈ withLocals st locals order := by
  induction order generalizing locals with
  | nil => cases hn
  | cons m order ih =>
    rw [withLocals]
    obtain rfl | hn := List.mem_cons.mp hn
    · exact ⟨_, List.mem_cons_self⟩
    · obtain ⟨loc, hloc⟩ := ih hn
      exact ⟨loc, List.mem_cons_of_mem _ hloc⟩

theorem mem_of_withLocals {x : Locals × st.Traced} {locals : Nat → Locals}
    {order : List (Nat × st.Traced)} (hx : x ∈ withLocals st locals order) :
    ∃ n ∈ order, n.2 = x.2 := by
  induction order generalizing locals with
  | nil => cases hx
  | cons m order ih =>
    rw [withLocals] at hx
    obtain rfl | hx := List.mem_cons.mp hx
    · exact ⟨m, List.mem_cons_self, rfl⟩
    · obtain ⟨n, hn, heq⟩ := ih hx
      exact ⟨n, List.mem_cons_of_mem m hn, heq⟩

/-- The orders in which the phases process the functions of all files. -/
structure PhaseOrder (st : TraceStore) (fs : List (Nat × st.Traced)) where
  phase5 : List (Nat × st.Traced)
  phase6 : List (Nat × st.Traced)
  perm5 : phase5.Perm fs
  perm6 : phase6.Perm fs

/-- The functions of each file are processed in the order of its objects, as `do_phase5` goes over
    them. -/
structure PhaseOrder.KeepsFiles {fs : List (Nat × st.Traced)} (order : PhaseOrder st fs) :
    Prop where
  phase5 : ∀ b, order.phase5.filter (fun n => n.1 = b) = fs.filter fun n => n.1 = b
  phase6 : ∀ b, order.phase6.filter (fun n => n.1 = b) = fs.filter fun n => n.1 = b

/-- Phase 5 over all functions and then phase 6. -/
def doPhases {fs : List (Nat × st.Traced)} (order : PhaseOrder st fs) : TraceM Unit := do
  let _ ← doPhase5 st order.phase5
  let _ ← doPhase6 st order.phase6

/-- The actions of the functions in their order. -/
def actsOf (acts : st.Traced → Locals → Option (List Act)) (order : List (Nat × st.Traced)) :
    List Act :=
  (withLocals st (fun _ => .start) order).flatMap fun x => (acts x.2 x.1).getD []

/-- No function of the order stops by itself. -/
def Goes (acts : st.Traced → Locals → Option (List Act)) (order : List (Nat × st.Traced)) : Prop :=
  ∀ x ∈ withLocals st (fun _ => .start) order, (acts x.2 x.1).isSome

variable {acts : st.Traced → Locals → Option (List Act)} {fs order : List (Nat × st.Traced)}

/-- The loop of a phase, from any thread-local variables. -/
theorem phaseLoop_eq (hacts : ∀ n loc, Emits st (doPhase5Func st loc n)
      ((acts n loc).map fun as => (traced st n.1 loc, as))) (locals : Nat → Locals)
    (h : ∀ x ∈ withLocals st locals order, (acts x.2 x.1).isSome) (s : TraceState) :
    ((order.foldlM (fun locals n => do
        let loc ← doPhase5Func st (locals n.1) n.2
        pure (Function.update locals n.1 loc)) locals : TraceM (Nat → Locals)) s).map Prod.snd =
      runActs st ((withLocals st locals order).flatMap fun x => (acts x.2 x.1).getD []) s := by
  induction order generalizing locals s with
  | nil => rfl
  | cons n order ih =>
    rw [withLocals] at h ⊢
    obtain ⟨as, has⟩ := Option.isSome_iff_exists.mp (h _ List.mem_cons_self)
    dsimp only at has
    rw [List.flatMap_cons, runActs_append, has, Option.getD_some, List.foldlM_cons]
    have hfunc : doPhase5Func st (locals n.1) n.2 s =
        (runActs st as s).map fun s' => (traced st n.2.1 (locals n.1), s') := by
      rw [hacts n.2 (locals n.1) s, has]
      rfl
    show Option.map _ (((doPhase5Func st (locals n.1) n.2 s).bind fun out =>
      some (Function.update locals n.1 out.1, out.2)).bind fun out => _) = _
    rw [hfunc]
    cases runActs st as s with
    | none => rfl
    | some s' => exact ih _ (fun x hx => h x (List.mem_cons_of_mem _ hx)) s'

/-- A phase runs the actions of its functions, when none of them stops. -/
theorem doPhase5_eq (hacts : ∀ n loc, Emits st (doPhase5Func st loc n)
      ((acts n loc).map fun as => (traced st n.1 loc, as))) (h : Goes acts order)
    (s : TraceState) :
    (doPhase5 st order s).map Prod.snd = runActs st (actsOf acts order) s :=
  phaseLoop_eq hacts (fun _ => .start) h s

/-- A function that stops by itself ends the loop. -/
theorem phaseLoop_none (hacts : ∀ n loc, Emits st (doPhase5Func st loc n)
      ((acts n loc).map fun as => (traced st n.1 loc, as))) (locals : Nat → Locals)
    {x : Locals × st.Traced} (hx : x ∈ withLocals st locals order) (h : acts x.2 x.1 = none)
    (s : TraceState) :
    (order.foldlM (fun locals n => do
        let loc ← doPhase5Func st (locals n.1) n.2
        pure (Function.update locals n.1 loc)) locals : TraceM (Nat → Locals)) s = none := by
  induction order generalizing locals s with
  | nil => cases hx
  | cons n order ih =>
    rw [withLocals] at hx
    rw [List.foldlM_cons]
    show ((doPhase5Func st (locals n.1) n.2 s).bind fun out =>
      some (Function.update locals n.1 out.1, out.2)).bind (fun out => _) = none
    rw [hacts n.2 (locals n.1) s]
    obtain rfl | hx := List.mem_cons.mp hx
    · dsimp only at h
      rw [h]
      rfl
    · cases acts n.2 (locals n.1) with
      | none => rfl
      | some as =>
        simp only [Option.map_some, Option.bind_some]
        cases runActs st as s with
        | none => rfl
        | some s' => exact ih _ hx s'

/-- Both phases are two rounds of actions. -/
theorem doPhases_eq (hacts : ∀ n loc, Emits st (doPhase5Func st loc n)
      ((acts n loc).map fun as => (traced st n.1 loc, as))) (order : PhaseOrder st fs)
    (h5 : Goes acts order.phase5) (h6 : Goes acts order.phase6) (s : TraceState) :
    doPhases order s = (runActs st (actsOf acts order.phase5 ++ actsOf acts order.phase6) s).map
      fun s' => ((), s') := by
  have hrun : doPhases order s = (doPhase5 st order.phase5 s).bind fun out =>
      (doPhase5 st order.phase6 out.2).bind fun out => some ((), out.2) := rfl
  rw [hrun, runActs_append, ← doPhase5_eq hacts h5]
  cases doPhase5 st order.phase5 s with
  | none => rfl
  | some out =>
    simp only [Option.map_some, Option.bind_some]
    rw [← doPhase5_eq hacts h6]
    cases doPhase5 st order.phase6 out.2 <;> rfl

theorem doPhases_none (hacts : ∀ n loc, Emits st (doPhase5Func st loc n)
      ((acts n loc).map fun as => (traced st n.1 loc, as))) (order : PhaseOrder st fs)
    (h : ¬ (Goes acts order.phase5 ∧ Goes acts order.phase6)) (s : TraceState) :
    doPhases order s = none := by
  have hrun : doPhases order s = (doPhase5 st order.phase5 s).bind fun out =>
      (doPhase5 st order.phase6 out.2).bind fun out => some ((), out.2) := rfl
  have hstops : ∀ {order : List (Nat × st.Traced)}, ¬ Goes acts order →
      ∀ s, doPhase5 st order s = none := by
    intro order hno s
    simp only [Goes, not_forall, Option.not_isSome_iff_eq_none] at hno
    obtain ⟨x, hx, hnone⟩ := hno
    exact phaseLoop_none hacts (fun _ => .start) hx hnone s
  rw [hrun]
  by_cases h5 : Goes acts order.phase5
  · cases doPhase5 st order.phase5 s with
    | none => rfl
    | some out =>
      rw [Option.bind_some, hstops fun h6 => h ⟨h5, h6⟩]
      rfl
  · rw [hstops h5]
    rfl

/-- Orders in which no function stops have the same actions. -/
theorem mem_actsOf (hsame : ∀ n loc loc' as as', acts n loc = some as → acts n loc' = some as' →
      as = as') (hperm : order.Perm fs) (hgo : Goes acts order) (a : Act) :
    a ∈ actsOf acts order ↔ ∃ n ∈ fs, ∃ loc as, acts n.2 loc = some as ∧ a ∈ as := by
  unfold actsOf
  rw [List.mem_flatMap]
  constructor
  · rintro ⟨x, hx, ha⟩
    obtain ⟨as, has⟩ := Option.isSome_iff_exists.mp (hgo x hx)
    rw [has, Option.getD_some] at ha
    obtain ⟨n, hn, heq⟩ := mem_of_withLocals hx
    exact ⟨n, hperm.mem_iff.mp hn, x.1, as, by rw [heq]; exact has, ha⟩
  · rintro ⟨n, hn, loc, as, has, ha⟩
    obtain ⟨loc', hx⟩ : ∃ loc', (loc', n.2) ∈ withLocals st (fun _ => .start) order :=
      exists_withLocals (hperm.mem_iff.mpr hn)
    obtain ⟨as', has'⟩ := Option.isSome_iff_exists.mp (hgo _ hx)
    refine ⟨_, hx, ?_⟩
    rw [has', Option.getD_some, ← hsame n.2 loc loc' as as' has has']
    exact ha

/-- Orders that keep the functions of each file in theirs go alike. -/
theorem goes_congr {order order' : List (Nat × st.Traced)}
    (h : ∀ b, order.filter (fun n => n.1 = b) = order'.filter fun n => n.1 = b) :
    Goes acts order ↔ Goes acts order' := by
  unfold Goes
  refine forall_congr' fun x => imp_congr_left ?_
  rw [mem_withLocals, mem_withLocals]
  exact exists_congr fun b => by rw [h b]

end Orders

/-- **The order of the functions does not matter.**  For any two orders from one state, phases 5 and
6 end with the same call lists and the same possible values if both come back; and they come back
in both orders or in none when each file's functions are processed in their order, in whatever way
the files take turns. -/
theorem phases_order (st : TraceStore) (fs : List (Nat × st.Traced))
    (order order' : PhaseOrder st fs) (s : TraceState) :
    (order.KeepsFiles → order'.KeepsFiles →
      ((doPhases order s).isSome ↔ (doPhases order' s).isSome)) ∧
      ∀ t t', doPhases order s = some ((), t) → doPhases order' s = some ((), t') →
        SameGraph t t' := by
  choose acts hsame hacts using @exists_acts st
  have hmem : ∀ {order : List (Nat × st.Traced)}, order.Perm fs → Goes acts order → ∀ a,
      a ∈ actsOf acts order ↔ ∃ n ∈ fs, ∃ loc as, acts n.2 loc = some as ∧ a ∈ as :=
    fun hperm hgo a => mem_actsOf hsame hperm hgo a
  have halike : Goes acts order.phase5 → Goes acts order.phase6 → Goes acts order'.phase5 →
      Goes acts order'.phase6 → _ := fun h5 h6 h5' h6' =>
    @rounds_alike st _ _ _ _ (fun a => (hmem order.perm6 h6 a).trans (hmem order.perm5 h5 a).symm)
      (fun a => (hmem order'.perm5 h5' a).trans (hmem order.perm5 h5 a).symm)
      (fun a => (hmem order'.perm6 h6' a).trans (hmem order.perm5 h5 a).symm) s
  constructor
  · intro hkeeps hkeeps'
    have hgo5 : Goes acts order.phase5 ↔ Goes acts order'.phase5 :=
      goes_congr fun b => (hkeeps.phase5 b).trans (hkeeps'.phase5 b).symm
    have hgo6 : Goes acts order.phase6 ↔ Goes acts order'.phase6 :=
      goes_congr fun b => (hkeeps.phase6 b).trans (hkeeps'.phase6 b).symm
    by_cases hgo : Goes acts order.phase5 ∧ Goes acts order.phase6
    · obtain ⟨h5, h6⟩ := hgo
      rw [doPhases_eq hacts order h5 h6, doPhases_eq hacts order' (hgo5.mp h5) (hgo6.mp h6),
        Option.isSome_map, Option.isSome_map]
      exact (halike h5 h6 (hgo5.mp h5) (hgo6.mp h6)).1
    · rw [doPhases_none hacts order hgo,
        doPhases_none hacts order' fun h => hgo ⟨hgo5.mpr h.1, hgo6.mpr h.2⟩]
  · intro t t' ht ht'
    have hgo : Goes acts order.phase5 ∧ Goes acts order.phase6 := by
      by_contra hno
      rw [doPhases_none hacts order hno] at ht
      cases ht
    have hgo' : Goes acts order'.phase5 ∧ Goes acts order'.phase6 := by
      by_contra hno
      rw [doPhases_none hacts order' hno] at ht'
      cases ht'
    rw [doPhases_eq hacts order hgo.1 hgo.2] at ht
    rw [doPhases_eq hacts order' hgo'.1 hgo'.2] at ht'
    obtain ⟨t₁, hrun, ht⟩ := Option.map_eq_some_iff.mp ht
    obtain ⟨t₂, hrun', ht'⟩ := Option.map_eq_some_iff.mp ht'
    cases ht
    cases ht'
    exact (halike hgo.1 hgo.2 hgo'.1 hgo'.2).2 t t' hrun hrun'

/-! ## Two files -/

/-- The functions `a` and `b`, with bodies. -/
def opsFuncs : FuncStore where
  sn := fun p => if p = 0 then funcSinode (bytesOf "a") (some ⟨0, 0⟩) else
    funcSinode (bytesOf "b") (some ⟨0, 0⟩)
  next := 2
  trees := fun ty => if ty = .funcGlobal then .node .nil 0 (.node .nil 1 .nil) else .nil
  builtin := none
  inserted := []
  base :=
    { typed := by
        intro ty p hp
        by_cases hty : ty = .funcGlobal
        · subst hty
          have hmem : p = 0 ∨ p = 1 := by simpa using hp
          obtain rfl | rfl := hmem
          · exact ⟨rfl, Nat.two_pos⟩
          · exact ⟨rfl, Nat.one_lt_two⟩
        · simp [hty] at hp
      flag := fun p => Or.inl (by dsimp only; split <;> rfl)
      named := by
        intro ty
        by_cases hty : ty = .funcGlobal
        · subst hty
          decide
        · simp [hty] }
  id := fun p => TYPE_FUNC_GLOBAL * 2 ^ ID_VALUE_BITS + p
  id_inj := declStore.id_inj
  byId := fun value =>
    cond (Nat.beq value (TYPE_FUNC_GLOBAL * 2 ^ ID_VALUE_BITS + 1)) (some 1)
      (cond (Nat.beq value (TYPE_FUNC_GLOBAL * 2 ^ ID_VALUE_BITS)) (some 0) none)
  byId_id := by
    intro value p h
    cases hb : Nat.beq value (TYPE_FUNC_GLOBAL * 2 ^ ID_VALUE_BITS + 1) with
    | true =>
      rw [hb] at h
      cases h
      exact ⟨Nat.one_lt_two, (Nat.eq_of_beq_eq_true hb).symm⟩
    | false =>
      cases ha : Nat.beq value (TYPE_FUNC_GLOBAL * 2 ^ ID_VALUE_BITS) with
      | true =>
        rw [hb, ha] at h
        cases h
        exact ⟨Nat.two_pos, (Nat.eq_of_beq_eq_true ha).symm⟩
      | false =>
        rw [hb, ha] at h
        cases h
  attributes := fun _ => []
  file_data := fun p _ h => absurd h (funcGlobal_not_lt p)
  decl := fun _ => ⟨some (bytesOf "b"), false, true, false, false, none, ⟨none, 0, 0⟩⟩
  resfile := fun _ => 0

/-- `b` is stored in a variable of `a`, through which `a` calls: `v = b; v ();`. -/
def turnStore : TraceStore where
  toFuncStore := opsFuncs
  toFieldGraph := TargetField.noFields
  body p := if p = 0 then ⟨[], [(5, 7)], [], [], [0, 1]⟩
    else ⟨[], [], [], [⟨opsFuncs.id 0, SI_TYPE_DF_GIMPLE, 0, 1⟩], []⟩
  gimple := fun
    | 0 => .assign 2 (.varDecl 5) (some (.addrExpr (.functionDecl 0)))
    | _ => .call (some (.varDecl 5))
  ssa _ := ⟨none, none⟩
  varDecl _ := ⟨none, false, false, false, false, ⟨none, 0, 0⟩⟩
  varNode _ := 0
  componentRef _ := ⟨.other, none, false⟩

/-- `a` and `b`, each in a file of its own. -/
def turnFuncs : List (Nat × turnStore.Traced) :=
  [(0, ⟨0, Nat.two_pos, rfl⟩), (1, ⟨1, Nat.one_lt_two, rfl⟩)]

/-- `a` first in both phases. -/
def aFirst : PhaseOrder turnStore turnFuncs := ⟨turnFuncs, turnFuncs, .refl _, .refl _⟩

/-- `b` first in phase 5. -/
def bFirst : PhaseOrder turnStore turnFuncs := ⟨turnFuncs.reverse, turnFuncs, .swap _ _ _, .refl _⟩

theorem bFirst_keepsFiles : bFirst.KeepsFiles where
  phase5 file := by
    by_cases h0 : 0 = file
    · subst h0
      rfl
    · by_cases h1 : 1 = file
      · subst h1
        rfl
      · simp [bFirst, turnFuncs, h0, h1]
  phase6 _ := rfl

/-- Both orders come back, with the same call graph. -/
theorem turns_alike : ∃ t t', doPhases aFirst ⟨turnStore.noCalls, fun _ => []⟩ = some ((), t) ∧
    doPhases bFirst ⟨turnStore.noCalls, fun _ => []⟩ = some ((), t') ∧ SameGraph t t' := by
  have hboth := phases_order turnStore turnFuncs aFirst bFirst ⟨turnStore.noCalls, fun _ => []⟩
  have ha : (doPhases aFirst ⟨turnStore.noCalls, fun _ => []⟩).isSome := by decide
  have hb := (hboth.1 ⟨fun _ => rfl, fun _ => rfl⟩ bFirst_keepsFiles).mp ha
  obtain ⟨⟨_, t⟩, ht⟩ := Option.isSome_iff_exists.mp ha
  obtain ⟨⟨_, t'⟩, ht'⟩ := Option.isSome_iff_exists.mp hb
  exact ⟨t, t', ht, ht', hboth.2 t t' ht ht'⟩

end Srcinv.Analysis
