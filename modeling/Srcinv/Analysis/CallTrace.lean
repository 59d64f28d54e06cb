import Srcinv.Analysis.CallGraph
import Srcinv.Analysis.TargetField

/-!
# Phases 5 and 6: where functions are stored and what is called (`analysis/gcc/c.cc`)

For each function with a body a phase goes over the statements that use the function, and adds it
to the possible values of the variables it is assigned to; then over the statements of the
function itself, for the functions that these call.  An indirect call reads the possible values of
the variable it goes through.

Every function here is a state transformer that may end in a failed `BUG_ON` or at a null pointer.
What the phases only read (trees, statements, types, the lists of phase 4) is in `TraceStore`; what
is written to a log is left out, but not what is read for it.

Each sibuf is processed by a thread of its own, that starts with `cur_fsn` and `cur_gimple` at
`NULL`; the functions of different sibufs come in any order.
-/

namespace Srcinv.Analysis

open TargetField (Locals ComponentRef getComponentRefVnl)

/-! ## What is read -/

/-- The operands that the phases tell apart; SSA names and references to fields go by address. -/
inductive Tree where
  | functionDecl (n : Nat)
  | varDecl (n : Nat)
  | parmDecl (n : Nat)
  | componentRef (n : Nat)
  | arrayRef (op0 : Tree)
  | memRef (op0 : Tree) (offset : Int)
  | addrExpr (op0 : Tree)
  | ssaName (n : Nat)
  | integerCst (n : Nat)
  | other (n : Nat)
  deriving DecidableEq, Repr

/-- The statements that the phases tell apart.  `rhs1` is the right side of an assignment when it
    is one operand without an operator. -/
inductive Gimple where
  | assign (numOps : Nat) (lhs : Tree) (rhs1 : Option Tree)
  | callInternal (internalFn : Nat)
  | call (fn : Option Tree)
  | phi (args : List Tree)
  | nop
  | other
  deriving DecidableEq, Repr

/-- `struct use_at_list`. -/
structure UseAtList where
  funcId : Nat
  type : Int
  «where» : Nat
  extraInfo : Nat
  deriving DecidableEq, Repr

/-- `struct id_list`. -/
structure IdList where
  value : Nat
  valueFlag : Nat
  deriving DecidableEq, Repr

/-- What phase 4 leaves in a `func_node`, and the statements of the function: the phis and the
    others of each block in turn.  A variable is its tree and its `var_node`. -/
structure FuncBody where
  args : List (Nat × Nat)
  localVars : List (Nat × Nat)
  globalVars : List IdList
  usedAt : List UseAtList
  stmts : List Nat
  deriving DecidableEq, Repr

/-- `SSA_NAME_DEF_STMT` and `SSA_NAME_VAR`. -/
structure SsaName where
  defStmt : Option Nat
  var : Option Tree
  deriving DecidableEq, Repr

/-- What phases 5 and 6 read and do not change. -/
structure TraceStore extends FuncStore, TargetField.FieldGraph where
  body : Nat → FuncBody
  gimple : Nat → Gimple
  ssa : Nat → SsaName
  varDecl : Nat → VarTree
  /-- The `var_node` of a variable's sinode. -/
  varNode : Nat → Nat
  componentRef : Nat → ComponentRef

/-! ## What is written -/

/-- The `value_flag` of a possible value. -/
inductive ValueFlag where
  | unspec
  | intCst
  | strCst
  | func
  | varAddr
  | tree
  | expr
  | realCst
  deriving DecidableEq, Repr

/-- `struct possible_list`. -/
structure PossibleList where
  valueFlag : ValueFlag
  value : Nat
  extraParam : Nat
  deriving DecidableEq, Repr

/-- The `func_node`s, and the `possible_values` of each `var_node`. -/
structure TraceState where
  fns : FuncNodes
  possible : Nat → List PossibleList

abbrev TraceM := StateT TraceState Option

/-- `possible_list_find`: the flag is not compared. -/
def possibleListFind (head : List PossibleList) (_valFlag : ValueFlag) (value : Nat) :
    Option PossibleList :=
  head.find? fun tmp => tmp.value = value

/-- `__add_possible`: the list after it. -/
def addPossibleTo (head : List PossibleList) (valFlag : ValueFlag) (value extra : Nat) :
    List PossibleList :=
  match possibleListFind head valFlag value with
  | some _ => head
  | none => head ++ [⟨valFlag, value, extra⟩]

/-- `add_possible`. -/
def addPossible (vn : Nat) (valueFlag : ValueFlag) (value extra : Nat) : TraceM Unit :=
  fun s => some ((), { s with
    possible := Function.update s.possible vn
      (addPossibleTo (s.possible vn) valueFlag value extra) })

/-- A step that changes call lists only. -/
def onCalls (f : FuncNodes → Option FuncNodes) : TraceM Unit :=
  fun s => (f s.fns).map fun fns => ((), { s with fns := fns })

/-- `add_possible_callee`. -/
def addPossibleCallee (st : FuncStore) (callerFsn gs : Nat) (head : List PossibleList)
    (fns : FuncNodes) : Option FuncNodes :=
  head.foldlM (fun fns tmpPv =>
    if tmpPv.valueFlag ≠ .func then some fns
    else possibleCallee st callerFsn gs tmpPv.value fns) fns

/-- `add_possible_callee` with the values of a `var_node`. -/
def addPossibleCalleeOf (st : FuncStore) (callerFsn gs vn : Nat) : TraceM Unit :=
  fun s => onCalls (addPossibleCallee st callerFsn gs (s.possible vn)) s

variable (st : TraceStore) (loc : Locals)

/-! ## Where a function is stored -/

/-- `get_target_var_node`: the `var_node`, if the variable is one of the function's. -/
def getTargetVarNode (fsn node : Nat) : Option (Option Nat) :=
  if ¬ HasBody st.toFuncStore fsn then none
  else match (st.body fsn).localVars.find? fun tmp => tmp.1 = node with
  | some tmp => some (some tmp.2)
  | none =>
    (getVarSinode st.toSinodeStore (st.resfile node) node (st.varDecl node) true).map fun sn =>
      sn.bind fun targetVsn =>
        if (st.body fsn).globalVars.any fun t => t.valueFlag = 0 ∧ t.value = st.id targetVsn then
          some (st.varNode targetVsn)
        else none

/-- `get_target_parm_node`. -/
def getTargetParmNode (fsn node : Nat) : Option Nat :=
  if ¬ HasBody st.toFuncStore fsn then none
  else ((st.body fsn).args.find? fun tmp => tmp.1 = node).map Prod.snd

/-- `__func_assigned`. -/
def funcAssigned (n fsn : Nat) : Tree → TraceM Unit
  | .varDecl op => do
    match ← liftM (getTargetVarNode st fsn op) with
    | none => pure ()
    | some vn => addPossible vn .func (st.id n) 0
  | .parmDecl op => do
    let vn ← liftM (getTargetParmNode st fsn op)
    addPossible vn .func (st.id n) 0
  | .componentRef op => do
    match ← liftM (getComponentRefVnl st.toFieldGraph loc (st.componentRef op)) with
    | none => pure ()
    | some vnl => addPossible vnl .func (st.id n) 0
  | .arrayRef op0 => funcAssigned n fsn op0
  | .memRef op0 _ => funcAssigned n fsn op0
  | _ => pure ()

/-- The loop of `__do_func_used_at` for one use. -/
def funcUsedAt (sn : Nat) (tmpUa : UseAtList) : TraceM Unit := do
  let fsn ← liftM (st.byId tmpUa.funcId)
  if tmpUa.type = SI_TYPE_DF_GIMPLE then
    match st.gimple tmpUa.where with
    | .assign numOps lhs _ =>
      if tmpUa.extraInfo = 0 then failure
      else if numOps ≠ 2 then pure ()
      else funcAssigned st loc sn fsn lhs
    | _ => pure ()

/-- `__do_func_used_at`. -/
def doFuncUsedAt (sn : Nat) : TraceM Unit :=
  (st.body sn).usedAt.forM (funcUsedAt st loc sn)

/-! ## What a statement calls -/

/-- `call_var_decl`. -/
def callVarDecl (fsn gs var : Nat) : TraceM Unit := do
  match ← liftM (getTargetVarNode st fsn var) with
  | none => pure ()
  | some vn => addPossibleCalleeOf st.toFuncStore fsn gs vn

/-- `call_ssaname_gassign_component_ref`. -/
def callSsanameGassignComponentRef (sn origGs refOp : Nat) : TraceM Unit := do
  match ← liftM (getComponentRefVnl st.toFieldGraph loc (st.componentRef refOp)) with
  | none => pure ()
  | some vnl => addPossibleCalleeOf st.toFuncStore sn origGs vnl

/-- `gimple_call_addr_fndecl` of an `ADDR_EXPR` of the operand. -/
def gimpleCallAddrFndecl : Tree → Option Nat
  | .functionDecl n => some n
  | .memRef (.addrExpr (.functionDecl n)) 0 => some n
  | _ => none

/-- `call_addr_expr` of an `ADDR_EXPR` of the operand. -/
def callAddrExpr (sn gs : Nat) (op : Tree) : TraceM Unit :=
  match gimpleCallAddrFndecl op with
  | none => pure ()
  | some op0 => onCalls (callFuncDecl st.toFuncStore sn gs op0)

/-- `call_ssaname_gassign`. -/
def callSsanameGassign (sn origGs : Nat) (rhs1 : Option Tree) : TraceM Unit :=
  match rhs1 with
  | some (.componentRef op) => callSsanameGassignComponentRef st loc sn origGs op
  | some (.varDecl op) => callVarDecl st sn origGs op
  | some (.addrExpr op) => callAddrExpr st sn origGs op
  | _ => pure ()

def SSANAME_DEPTH : Nat := 256

/-- The stack of SSA names when the definition of the name is looked at: a call from a statement
    starts it anew, a call from a phi pushes the name. -/
def ssanameStart (flag : Bool) (ssanameNode : List Nat) (callOp : Nat) : List Nat :=
  if flag then ssanameNode ++ [callOp] else []

/-- A stack that has grown from `start`. -/
abbrev Above (start : List Nat) : Type := { l : List Nat // start.length ≤ l.length }

/-- The variable of an SSA name. -/
def ssanameVar (sn gs : Nat) : Tree → TraceM Unit
  | .varDecl n => callVarDecl st sn gs n
  | _ => pure ()

/-- The end of `call_ssaname`: the name is popped, unless it has no variable. -/
def ssanameEnd (sn gs callOp : Nat) (flag : Bool) (ssanameNode : List Nat)
    (after : Above (ssanameStart flag ssanameNode callOp)) :
    TraceM { l : List Nat // flag = true → ssanameNode.length ≤ l.length } :=
  have hlen : flag = true → ssanameNode.length < after.1.length := by
    intro hflag
    have hle := after.2
    simp only [ssanameStart, hflag, if_true, List.length_append, List.length_singleton] at hle
    exact hle
  match (st.ssa callOp).var with
  | none => pure ⟨after.1, fun h => Nat.le_of_lt (hlen h)⟩
  | some var => do
    ssanameVar st sn gs var
    if flag ∧ after.1.getLast? ≠ some callOp then failure
    else pure ⟨if flag then after.1.dropLast else after.1, by
      intro hflag
      have hlt := hlen hflag
      rw [if_pos hflag, List.length_dropLast]
      omega⟩

/-- `call_ssaname` with the stack `ssaname_node`. -/
def callSsaname (sn gs callOp : Nat) (flag : Bool) (ssanameNode : List Nat) :
    TraceM { l : List Nat // flag = true → ssanameNode.length ≤ l.length } :=
  if _h : flag = true ∧ SSANAME_DEPTH - 1 ≤ ssanameNode.length then failure
  else if flag = true ∧ callOp ∈ ssanameNode then pure ⟨ssanameNode, fun _ => Nat.le_refl _⟩
  else do
    let start : Above (ssanameStart flag ssanameNode callOp) := ⟨_, Nat.le_refl _⟩
    let after : Above (ssanameStart flag ssanameNode callOp) ←
      match (st.ssa callOp).defStmt.map st.gimple with
      | some (.assign _ _ rhs1) => do
        callSsanameGassign st loc sn gs rhs1
        pure start
      | some (.phi args) =>
        args.foldlM (fun (l : Above (ssanameStart flag ssanameNode callOp)) phiOp =>
          match phiOp with
          | .ssaName n => do
            let l' ← callSsaname sn gs n true l.1
            pure ⟨l'.1, Nat.le_trans l.2 (l'.2 rfl)⟩
          | _ => pure l) start
      | _ => pure start
    ssanameEnd st sn gs callOp flag ssanameNode after
  termination_by if flag then SSANAME_DEPTH - ssanameNode.length else SSANAME_DEPTH + 1
  decreasing_by
    have hle := l.2
    simp only [ssanameStart, SSANAME_DEPTH] at *
    cases flag with
    | false =>
      simp only [if_true, Bool.false_eq_true, if_false]
      omega
    | true =>
      simp only [if_true, List.length_append, List.length_singleton, true_and] at *
      omega

/-- `__trace_call_gs`. -/
def traceCallGs (sn gs : Nat) : TraceM Unit :=
  match st.gimple gs with
  | .callInternal internalFn => onCalls fun fns => some (internalCall sn gs internalFn fns)
  | .call none => failure
  | .call (some (.addrExpr op)) => callAddrExpr st sn gs op
  | .call (some (.varDecl op)) => callVarDecl st sn gs op
  | .call (some (.ssaName op)) => do
    let _ ← callSsaname st loc sn gs op false []
  | _ => pure ()

/-- `__do_trace_call`: the thread-local variables after it. -/
def doTraceCall (sn : Nat) : TraceM Locals :=
  (st.body sn).stmts.foldlM (fun loc gs => do
    let loc := { loc with curGimple := some gs }
    traceCallGs st loc sn gs
    pure loc) { loc with curFsn := some sn }

/-! ## The phases -/

/-- `do_phase5_func`. -/
def doPhase5Func (n : st.Traced) : TraceM Locals := do
  doFuncUsedAt st loc n.1
  doTraceCall st loc n.1

/-- `do_phase5` for all sibufs, over the functions in the order in which they are processed.  A
    function comes with the sibuf that its thread is for. -/
def doPhase5 (order : List (Nat × st.Traced)) : TraceM (Nat → Locals) :=
  order.foldlM (fun locals n => do
    let loc ← doPhase5Func st (locals n.1) n.2
    pure (Function.update locals n.1 loc)) fun _ => .start

/-- `do_phase6`. -/
def doPhase6 (order : List (Nat × st.Traced)) : TraceM (Nat → Locals) := doPhase5 st order

end Srcinv.Analysis
