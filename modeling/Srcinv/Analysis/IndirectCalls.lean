import Srcinv.Analysis.CallSsa
import Srcinv.Analysis.GvarInit

/-!
# The calls that phases 4 to 6 find (`analysis/gcc/c.cc`)

Phase 4 enters the functions that initialisers store, phase 5 those that statements assign, and
both phases 5 and 6 note the callees of every call; a call through a variable or a field has all
functions that are stored there, by whatever function and through whatever object.

* `Stored`, `Calls` — what is stored where, and what a function calls.
* `traceCallGs_does` — what the trace of one statement adds, as long as the names that the call
  leads to are found and do not fill the stack.
* `callGraph_stored` — **after phases 4, 5 and 6, in any order of the functions, the two call lists
  have the calls through stored functions and nothing else.**
-/

namespace Srcinv.Analysis.IndirectCalls

open Srcinv.Lib
open TargetField (Locals getComponentRefVnl getComponentRefVnl_of_start)

section

variable (st : TraceStore)

/-! ## What is stored and what is called -/

/-- The `var_node` that an assignment with the left side is for, whatever the thread is at. -/
inductive Target (fsn : Nat) : Tree → Nat → Prop
  | varDecl {op vn : Nat} (h : getTargetVarNode st fsn op = some (some vn)) :
    Target fsn (.varDecl op) vn
  | parmDecl {op vn : Nat} (h : getTargetParmNode st fsn op = some vn) :
    Target fsn (.parmDecl op) vn
  | componentRef {op vnl : Nat}
    (h : getComponentRefVnl st.toFieldGraph .start (st.componentRef op) = some (some vnl)) :
    Target fsn (.componentRef op) vnl
  | arrayRef {op0 : Tree} {vn : Nat} (h : Target fsn op0 vn) : Target fsn (.arrayRef op0) vn
  | memRef {op0 : Tree} {offset : Int} {vn : Nat} (h : Target fsn op0 vn) :
    Target fsn (.memRef op0 offset) vn

/-- A statement that uses the function `n` assigns it to `vn`. -/
def AssignedTo (n vn : Nat) : Prop :=
  ∃ tmpUa ∈ (st.body n).usedAt, ∃ fsn lhs rhs1, st.byId tmpUa.funcId = some fsn ∧
    tmpUa.type = SI_TYPE_DF_GIMPLE ∧ st.gimple tmpUa.where = .assign 2 lhs rhs1 ∧
    Target st fsn lhs vn

/-- Who is called: a function with a sinode, a declaration without one, a function of the
    compiler. -/
inductive Callee where
  | sinode (p : Nat)
  | decl (n : Nat)
  | internal (internalFn : Nat)
  deriving DecidableEq, Repr

/-- The entries of a call. -/
def Callee.entries (sn : Nat) : Callee → Side × Nat × Nat × Nat → Prop
  | sinode p => callEntries st.toFuncStore sn (st.id p) 0 (Resolves st.toFuncStore p)
  | decl n => callEntries st.toFuncStore sn n 1 fun _ => False
  | internal internalFn => callEntries st.toFuncStore sn internalFn 0 fun _ => False

/-- The operand is the address of a function, or a variable or a field where `V` has one. -/
inductive Operand (loc : Locals) (sn : Nat) (V : FuncValues) : Tree → Callee → Prop
  | sinode {op : Tree} {n p : Nat} (h : gimpleCallAddrFndecl op = some n)
    (hp : getFuncSinode st.toSinodeStore (st.resfile n) (st.decl n) true = some (some p)) :
    Operand loc sn V (.addrExpr op) (.sinode p)
  | decl {op : Tree} {n : Nat} (h : gimpleCallAddrFndecl op = some n)
    (hp : getFuncSinode st.toSinodeStore (st.resfile n) (st.decl n) true = some none) :
    Operand loc sn V (.addrExpr op) (.decl n)
  | varDecl {op vn value p : Nat} (h : getTargetVarNode st sn op = some (some vn))
    (hv : V vn value) (hp : st.byId value = some p) : Operand loc sn V (.varDecl op) (.sinode p)
  | componentRef {op vnl value p : Nat}
    (h : getComponentRefVnl st.toFieldGraph loc (st.componentRef op) = some (some vnl))
    (hv : V vnl value) (hp : st.byId value = some p) :
    Operand loc sn V (.componentRef op) (.sinode p)

/-- The callees of an SSA name: those of the definition of any name that it leads to through the
    arguments of phis, and those of the variable of such a name. -/
def NameCalls (loc : Locals) (sn : Nat) (V : FuncValues) (callOp : Nat) (c : Callee) : Prop :=
  ∃ n, Relation.ReflTransGen (PhiArg st) callOp n ∧
    ((∃ rhs1, defRhs1 st n = some rhs1 ∧ Operand st loc sn V rhs1 c) ∨
      ∃ op, (st.ssa n).var = some (.varDecl op) ∧ Operand st loc sn V (.varDecl op) c)

/-- What a statement calls. -/
def StmtCalls (sn : Nat) (V : FuncValues) (gs : Nat) (c : Callee) : Prop :=
  match st.gimple gs with
  | .callInternal internalFn => c = .internal internalFn
  | .call (some (.addrExpr op)) => Operand st ⟨some sn, some gs⟩ sn V (.addrExpr op) c
  | .call (some (.varDecl op)) => Operand st ⟨some sn, some gs⟩ sn V (.varDecl op) c
  | .call (some (.ssaName op)) => NameCalls st ⟨some sn, some gs⟩ sn V op c
  | _ => False

/-- **What a function calls**, when the values in `V` are stored. -/
def Calls (sn : Nat) (V : FuncValues) (c : Callee) : Prop :=
  ∃ gs ∈ (st.body sn).stmts, StmtCalls st sn V gs c

/-! ## What has to be found -/

/-- The variable or the field that an assignment is for is looked up, at any time of a thread. -/
def TargetFound (fsn : Nat) : Tree → Prop
  | .varDecl op => (getTargetVarNode st fsn op).isSome
  | .parmDecl op => (getTargetParmNode st fsn op).isSome
  | .componentRef op => (getComponentRefVnl st.toFieldGraph .start (st.componentRef op)).isSome
  | .arrayRef op0 | .memRef op0 _ => TargetFound fsn op0
  | _ => True

/-- The statement that uses a function is in a function of the store, at an operand. -/
def UseFound (tmpUa : UseAtList) : Prop :=
  ∃ fsn, st.byId tmpUa.funcId = some fsn ∧ (tmpUa.type = SI_TYPE_DF_GIMPLE →
    ∀ numOps lhs rhs1, st.gimple tmpUa.where = .assign numOps lhs rhs1 →
      tmpUa.extraInfo ≠ 0 ∧ (numOps = 2 → TargetFound st fsn lhs))

/-- What a statement calls is looked up, and the walk over SSA names comes back (`CallMet`). -/
def StmtFound (sn gs : Nat) (possible : Nat → List PossibleList) : Prop :=
  match st.gimple gs with
  | .call none => False
  | .call (some (.addrExpr op)) => ∀ n, gimpleCallAddrFndecl op = some n →
    (Act.funcDecl sn gs n).Ok st.toFuncStore (funcValues possible)
  | .call (some (.varDecl op)) => ∃ as, readActs sn gs (getTargetVarNode st sn op) = some as ∧
    ∀ a ∈ as, a.Ok st.toFuncStore (funcValues possible)
  | .call (some (.ssaName op)) => ∀ fns, CallMet st ⟨some sn, some gs⟩ sn gs op ⟨fns, possible⟩
  | _ => True

end

variable {st : TraceStore} {loc : Locals} {sn gs n : Nat} {possible : Nat → List PossibleList}

/-! ## One statement -/

theorem actsAdd_readActs {r : Option (Option Nat)} {x : Side × Nat × Nat × Nat} :
    ActsAdd st possible (readActs sn gs r) x ↔ ∃ vn value p, r = some (some vn) ∧
      funcValues possible vn value ∧ st.byId value = some p ∧
      (Callee.sinode p).entries st sn x := by
  constructor
  · rintro ⟨as, has, a, ha, hadds⟩
    obtain ⟨vn, rfl, rfl⟩ := Option.map_eq_some_iff.mp has
    cases vn with
    | none => cases ha
    | some vn =>
      obtain rfl := List.mem_singleton.mp ha
      obtain ⟨value, hv, p, hp, hx⟩ := hadds
      exact ⟨vn, value, p, rfl, hv, hp, hx⟩
  · rintro ⟨vn, value, p, rfl, hv, hp, hx⟩
    exact ⟨_, rfl, _, List.mem_singleton.mpr rfl, value, hv, p, hp, hx⟩

/-- What the call of a declaration adds. -/
theorem funcDecl_adds {V : FuncValues} {x : Side × Nat × Nat × Nat} {op : Tree}
    (hop : gimpleCallAddrFndecl op = some n) :
    (Act.funcDecl sn gs n).Adds st.toFuncStore V x ↔
      ∃ c, Operand st loc sn V (.addrExpr op) c ∧ c.entries st sn x := by
  constructor
  · rintro ⟨r, hr, hx⟩
    cases r with
    | none => exact ⟨_, .decl hop hr, hx⟩
    | some p => exact ⟨_, .sinode hop hr, hx⟩
  · rintro ⟨c, hc, hx⟩
    cases hc with
    | sinode h hp =>
      rw [hop] at h
      cases h
      exact ⟨_, hp, hx⟩
    | decl h hp =>
      rw [hop] at h
      cases h
      exact ⟨_, hp, hx⟩

theorem operand_varDecl {V : FuncValues} {op : Nat} {x : Side × Nat × Nat × Nat} :
    (∃ c, Operand st loc sn V (.varDecl op) c ∧ c.entries st sn x) ↔
      ∃ vn value p, getTargetVarNode st sn op = some (some vn) ∧ V vn value ∧
        st.byId value = some p ∧ (Callee.sinode p).entries st sn x := by
  constructor
  · rintro ⟨c, hc, hx⟩
    cases hc with
    | varDecl h hv hp => exact ⟨_, _, _, h, hv, hp, hx⟩
  · rintro ⟨vn, value, p, h, hv, hp, hx⟩
    exact ⟨_, .varDecl h hv hp, hx⟩

/-- What the definition of a name adds is what its right side calls. -/
theorem actsAdd_rhsActs {rhs1 : Option Tree} {x : Side × Nat × Nat × Nat} :
    ActsAdd st possible (rhsActs st loc sn gs rhs1) x ↔ ∃ t c, rhs1 = some t ∧
      Operand st loc sn (funcValues possible) t c ∧ c.entries st sn x := by
  have hnone : ∀ {t : Option Tree}, rhsActs st loc sn gs t = some [] →
      (∀ t' c, t = some t' → ¬ Operand st loc sn (funcValues possible) t' c) →
      (ActsAdd st possible (rhsActs st loc sn gs t) x ↔ ∃ t' c, t = some t' ∧
        Operand st loc sn (funcValues possible) t' c ∧ c.entries st sn x) := by
    intro t hacts hno
    rw [hacts]
    constructor
    · rintro ⟨as, has, a, ha, -⟩
      cases has
      cases ha
    · rintro ⟨t', c, ht, hc, -⟩
      exact absurd hc (hno t' c ht)
  cases rhs1 with
  | none => exact hnone rfl fun _ _ h => by cases h
  | some t =>
    cases t with
    | componentRef op =>
      rw [rhsActs, actsAdd_readActs]
      constructor
      · rintro ⟨vn, value, p, h, hv, hp, hx⟩
        exact ⟨_, _, rfl, .componentRef h hv hp, hx⟩
      · rintro ⟨t, c, ht, hc, hx⟩
        cases ht
        cases hc with
        | componentRef h hv hp => exact ⟨_, _, _, h, hv, hp, hx⟩
    | varDecl op =>
      rw [rhsActs, actsAdd_readActs, ← operand_varDecl]
      constructor
      · rintro ⟨c, hc, hx⟩
        exact ⟨_, c, rfl, hc, hx⟩
      · rintro ⟨t, c, ht, hc, hx⟩
        cases ht
        exact ⟨c, hc, hx⟩
    | addrExpr op =>
      cases hop : gimpleCallAddrFndecl op with
      | none =>
        refine hnone (by simp only [rhsActs, hop, Option.elim_none]) ?_
        rintro t' c ht hc
        cases ht
        cases hc with
        | sinode h => rw [hop] at h; cases h
        | decl h => rw [hop] at h; cases h
      | some n =>
        have hacts : rhsActs st loc sn gs (some (.addrExpr op)) = some [.funcDecl sn gs n] := by
          simp only [rhsActs, hop, Option.elim_some]
        rw [hacts]
        constructor
        · rintro ⟨as, has, a, ha, hadds⟩
          cases has
          obtain rfl := List.mem_singleton.mp ha
          obtain ⟨c, hc, hx⟩ := (funcDecl_adds hop).mp hadds
          exact ⟨_, c, rfl, hc, hx⟩
        · rintro ⟨t, c, ht, hc, hx⟩
          cases ht
          exact ⟨_, rfl, _, List.mem_singleton.mpr rfl, (funcDecl_adds hop).mpr ⟨c, hc, hx⟩⟩
    | functionDecl | parmDecl | arrayRef | memRef | ssaName | integerCst | other =>
      refine hnone rfl fun t' c ht hc => ?_
      cases ht
      cases hc

/-- What the variable of a name adds is what it calls. -/
theorem actsAdd_varActs {var : Option Tree} {x : Side × Nat × Nat × Nat} :
    ActsAdd st possible (varActs st sn gs var) x ↔ ∃ op c, var = some (.varDecl op) ∧
      Operand st loc sn (funcValues possible) (.varDecl op) c ∧ c.entries st sn x := by
  cases var with
  | none =>
    constructor
    · rintro ⟨as, has, a, ha, -⟩
      cases has
      cases ha
    · rintro ⟨op, c, h, -⟩
      cases h
  | some t =>
    cases t with
    | varDecl op =>
      rw [varActs, actsAdd_readActs, ← operand_varDecl]
      constructor
      · rintro ⟨c, hc, hx⟩
        exact ⟨op, c, rfl, hc, hx⟩
      · rintro ⟨op', c, h, hc, hx⟩
        cases h
        exact ⟨c, hc, hx⟩
    | _ =>
      constructor
      · rintro ⟨as, has, a, ha, -⟩
        cases has
        cases ha
      · rintro ⟨op, c, h, -⟩
        cases h

/-- The names that a name leads to add what it calls. -/
theorem nameAdds_iff {callOp : Nat} {x : Side × Nat × Nat × Nat} :
    (∃ n, Relation.ReflTransGen (PhiArg st) callOp n ∧ NameAdds st loc sn gs possible n x) ↔
      ∃ c, NameCalls st loc sn (funcValues possible) callOp c ∧ c.entries st sn x := by
  constructor
  · rintro ⟨n, hn, hadds⟩
    obtain hadds | hadds := hadds
    · obtain ⟨t, c, ht, hc, hx⟩ := actsAdd_rhsActs.mp hadds
      exact ⟨c, ⟨n, hn, .inl ⟨t, ht, hc⟩⟩, hx⟩
    · obtain ⟨op, c, hop, hc, hx⟩ := actsAdd_varActs.mp hadds
      exact ⟨c, ⟨n, hn, .inr ⟨op, hop, hc⟩⟩, hx⟩
  · rintro ⟨c, ⟨n, hn, h⟩, hx⟩
    obtain ⟨t, ht, hc⟩ | ⟨op, hop, hc⟩ := h
    · exact ⟨n, hn, .inl (actsAdd_rhsActs.mpr ⟨t, c, ht, hc, hx⟩)⟩
    · exact ⟨n, hn, .inr (actsAdd_varActs.mpr ⟨op, c, hop, hc, hx⟩)⟩

/-- The walk from a statement adds what is found at every name that the operand leads to. -/
theorem callSsaname_does {callOp : Nat} {fns : FuncNodes}
    (h : CallMet st loc sn gs callOp ⟨fns, possible⟩) :
    ∃ r, Does possible (callSsaname st loc sn gs callOp false []) r fun x =>
      ∃ n, Relation.ReflTransGen (PhiArg st) callOp n ∧ NameAdds st loc sn gs possible n x := by
  have hwalks : ∀ a, PhiArg st callOp a →
      Walks (PhiArg st) (NamePasses st loc sn gs possible) (SSANAME_DEPTH - 1) [] a :=
    (walks_iff ssaname_depth_pos).mpr
      ⟨fun n hn => ⟨h.found n hn.to_reflTransGen, h.vars n hn⟩, h.shallow⟩
  have htop := h.found callOp .refl
  have hacts := does_acts (emits_rhsActs (defRhs1 st callOp)) (fun as h => reads_rhsActs h)
    htop.rhs
  have hargs := callArgs_does (l := (⟨_, Nat.le_refl _⟩ : Above (ssanameStart false [] callOp)))
    fun a ha => callSsaname_passes (hwalks a ha)
  have hwalk := hacts.bind (G := fun _ => _) (hargs.bind (ssanameEnd_top htop))
  rw [← callSsaname_top] at hwalk
  refine ⟨_, hwalk.congr fun x => ⟨?_, ?_⟩⟩
  · rintro (hx | ⟨a, ha, b, hb, hx⟩ | hx)
    · exact ⟨callOp, .refl, .inl hx⟩
    · exact ⟨b, .head ha (meets_iff.mp hb), hx⟩
    · exact ⟨callOp, .refl, .inr hx⟩
  · rintro ⟨n, hn, hx⟩
    obtain rfl | ⟨a, ha, han⟩ := Relation.ReflTransGen.cases_head hn
    · exact hx.imp id Or.inr
    · exact .inr (.inl ⟨a, ha, n, meets_iff.mpr han, hx⟩)

/-- An action that reads does what it adds. -/
theorem does_act (st : TraceStore) {a : Act} (hread : ∀ P, a.addTo P = P)
    (hok : a.Ok st.toFuncStore (funcValues possible)) :
    Does possible (a.run st) () (a.Adds st.toFuncStore (funcValues possible)) := by
  rintro s rfl
  obtain ⟨s', hrun, hposs, hgrows⟩ := Act.run_of_ok s hok
  exact ⟨s', hrun, hposs.trans (hread _), hgrows⟩

/-- **The trace of a statement** adds what the statement calls. -/
theorem traceCallGs_does (h : StmtFound st sn gs possible) :
    Does possible (traceCallGs st ⟨some sn, some gs⟩ sn gs) () fun x =>
      ∃ c, StmtCalls st sn (funcValues possible) gs c ∧ c.entries st sn x := by
  unfold StmtFound at h
  unfold traceCallGs StmtCalls
  split at h
  · exact h.elim
  · rename_i op hgs
    rw [hgs]
    dsimp only
    unfold callAddrExpr
    cases hop : gimpleCallAddrFndecl op with
    | none =>
      refine (does_pure ()).congr fun x => ⟨False.elim, ?_⟩
      rintro ⟨c, hc, -⟩
      cases hc with
      | sinode h => rw [hop] at h; cases h
      | decl h => rw [hop] at h; cases h
    | some n =>
      exact (does_act st (a := .funcDecl sn gs n) (fun _ => rfl) (h n hop)).congr
        fun x => funcDecl_adds hop
  · rename_i op hgs
    rw [hgs]
    dsimp only
    refine (does_acts (emits_readActs _) (fun as h => reads_readActs h) h).congr fun x => ?_
    rw [actsAdd_readActs, operand_varDecl]
  · rename_i op hgs
    rw [hgs]
    dsimp only
    obtain ⟨r, hdoes⟩ := callSsaname_does (h st.noCalls)
    refine (hdoes.bind (does_pure ())).congr fun x => ?_
    rw [← nameAdds_iff, or_false]
  · rename_i hnull haddr hvar hname
    cases hgs : st.gimple gs with
    | callInternal internalFn =>
      refine (does_act st (a := .internal sn gs internalFn) (fun _ => rfl)
        trivial).congr fun x => ?_
      constructor
      · exact fun hx => ⟨_, rfl, hx⟩
      · rintro ⟨c, rfl, hx⟩
        exact hx
    | call fn =>
      cases fn with
      | none => exact absurd hgs hnull
      | some op =>
        cases op with
        | addrExpr op => exact absurd hgs (haddr op)
        | varDecl op => exact absurd hgs (hvar op)
        | ssaName op => exact absurd hgs (hname op)
        | _ => exact (does_pure ()).congr fun x => by simp
    | _ => exact (does_pure ()).congr fun x => by simp

/-- The trace of a function adds what the function calls. -/
theorem traceStmts_does (h : ∀ gs ∈ (st.body sn).stmts, StmtFound st sn gs possible) :
    Does possible (traceStmts st sn) () fun x =>
      ∃ c, Calls st sn (funcValues possible) c ∧ c.entries st sn x := by
  have hrun : ∀ stmts : List Nat, (∀ gs ∈ stmts, StmtFound st sn gs possible) →
      Does possible (stmts.forM (fun gs => traceCallGs st ⟨some sn, some gs⟩ sn gs)) () fun x =>
        ∃ gs ∈ stmts, ∃ c, StmtCalls st sn (funcValues possible) gs c ∧ c.entries st sn x := by
    intro stmts
    induction stmts with
    | nil => exact fun _ => (does_pure ()).congr fun x => by simp
    | cons gs stmts ih =>
      intro hall
      have hcons : (gs :: stmts).forM (fun gs => traceCallGs st ⟨some sn, some gs⟩ sn gs) =
          (traceCallGs st ⟨some sn, some gs⟩ sn gs >>= fun _ =>
            stmts.forM (fun gs => traceCallGs st ⟨some sn, some gs⟩ sn gs)) := rfl
      rw [hcons]
      refine ((traceCallGs_does (hall gs List.mem_cons_self)).bind
        (ih fun g hg => hall g (List.mem_cons_of_mem gs hg))).congr fun x => ?_
      simp only [List.mem_cons, exists_eq_or_imp]
  refine (hrun _ h).congr fun x => ?_
  constructor
  · rintro ⟨gs, hgs, c, hc, hx⟩
    exact ⟨c, ⟨gs, hgs, hc⟩, hx⟩
  · rintro ⟨c, ⟨gs, hgs, hc⟩, hx⟩
    exact ⟨gs, hgs, c, hc, hx⟩

/-! ## Where functions are assigned -/

theorem emits_bind {α β : Type} {F : TraceM α} {G : α → TraceM β} {a : α} {b : β}
    {as bs : List Act} (hF : Emits st F (some (a, as))) (hG : Emits st (G a) (some (b, bs))) :
    Emits st (F >>= G) (some (b, as ++ bs)) := by
  intro s
  have hrun : (F >>= G) s = (F s).bind fun out => G out.1 out.2 := rfl
  rw [hrun, hF s]
  simp only [Option.bind_some, runActs_append]
  cases runActs st as s with
  | none => rfl
  | some s' => exact hG s'

/-- The actions are those in `S`. -/
def EmitsSet (st : TraceStore) (F : TraceM Unit) (S : Act → Prop) : Prop :=
  ∃ as, Emits st F (some ((), as)) ∧ ∀ a, a ∈ as ↔ S a

theorem emitsSet_pure : EmitsSet st (pure ()) fun _ => False :=
  ⟨[], fun _ => rfl, fun a => by simp⟩

theorem emitsSet_act (a : Act) : EmitsSet st (a.run st) fun b => b = a :=
  ⟨[a], emits_act a, fun _ => List.mem_singleton⟩

theorem EmitsSet.congr {F : TraceM Unit} {S S' : Act → Prop} (h : EmitsSet st F S)
    (hS : ∀ a, S a ↔ S' a) : EmitsSet st F S' := by
  obtain ⟨as, hF, has⟩ := h
  exact ⟨as, hF, fun a => (has a).trans (hS a)⟩

/-- A lookup that succeeds adds nothing. -/
theorem emitsSet_liftM {α : Type} {o : Option α} {a : α} {G : α → TraceM Unit} {S : Act → Prop}
    (ho : o = some a) (h : EmitsSet st (G a) S) : EmitsSet st (liftM o >>= G) S := by
  subst ho
  obtain ⟨as, hG, has⟩ := h
  refine ⟨as, ?_, has⟩
  have hpure : Emits st (liftM (some a) : TraceM α) (some (a, [])) := fun s => rfl
  exact emits_bind hpure hG

theorem emitsSet_forM {α : Type} {f : α → TraceM Unit} {l : List α} {S : α → Act → Prop}
    (h : ∀ x ∈ l, EmitsSet st (f x) (S x)) : EmitsSet st (l.forM f) fun a => ∃ x ∈ l, S x a := by
  induction l with
  | nil => exact emitsSet_pure.congr fun a => by simp
  | cons x l ih =>
    obtain ⟨as, hF, has⟩ := h x List.mem_cons_self
    obtain ⟨bs, hG, hbs⟩ := ih fun y hy => h y (List.mem_cons_of_mem x hy)
    refine ⟨as ++ bs, emits_bind hF hG, fun a => ?_⟩
    rw [List.mem_append, has, hbs]
    simp only [List.mem_cons, exists_eq_or_imp]

/-- The assignment of a function to what an operand is. -/
theorem emitsSet_funcAssigned {fsn : Nat} {op : Tree} (h : TargetFound st fsn op) :
    EmitsSet st (funcAssigned st .start n fsn op) fun a =>
      ∃ vn, Target st fsn op vn ∧ a = .possible vn (st.id n) := by
  induction op with
  | varDecl op =>
    obtain ⟨r, hr⟩ := Option.isSome_iff_exists.mp h
    refine emitsSet_liftM hr ?_
    cases r with
    | none =>
      refine emitsSet_pure.congr fun a => ⟨False.elim, ?_⟩
      rintro ⟨vn, hvn, -⟩
      cases hvn with
      | varDecl h => rw [hr] at h; cases h
    | some vn =>
      refine (emitsSet_act (.possible vn (st.id n))).congr fun a => ?_
      constructor
      · exact fun ha => ⟨vn, .varDecl hr, ha⟩
      · rintro ⟨vn', hvn, ha⟩
        cases hvn with
        | varDecl h => rw [hr] at h; cases h; exact ha
  | parmDecl op =>
    obtain ⟨vn, hvn⟩ := Option.isSome_iff_exists.mp h
    refine emitsSet_liftM hvn ((emitsSet_act (.possible vn (st.id n))).congr fun a => ?_)
    constructor
    · exact fun ha => ⟨vn, .parmDecl hvn, ha⟩
    · rintro ⟨vn', h, ha⟩
      cases h with
      | parmDecl h => rw [hvn] at h; cases h; exact ha
  | componentRef op =>
    obtain ⟨r, hr⟩ := Option.isSome_iff_exists.mp h
    refine emitsSet_liftM hr ?_
    cases r with
    | none =>
      refine emitsSet_pure.congr fun a => ⟨False.elim, ?_⟩
      rintro ⟨vn, hvn, -⟩
      cases hvn with
      | componentRef h => rw [hr] at h; cases h
    | some vnl =>
      refine (emitsSet_act (.possible vnl (st.id n))).congr fun a => ?_
      constructor
      · exact fun ha => ⟨vnl, .componentRef hr, ha⟩
      · rintro ⟨vn', hvn, ha⟩
        cases hvn with
        | componentRef h => rw [hr] at h; cases h; exact ha
  | arrayRef op0 ih =>
    refine (ih h).congr fun a => exists_congr fun vn => and_congr_left fun _ => ?_
    exact ⟨.arrayRef, fun h => by cases h with | arrayRef h => exact h⟩
  | memRef op0 offset ih =>
    refine (ih h).congr fun a => exists_congr fun vn => and_congr_left fun _ => ?_
    exact ⟨.memRef, fun h => by cases h with | memRef h => exact h⟩
  | functionDecl | addrExpr | ssaName | integerCst | other =>
    refine emitsSet_pure.congr fun a => ⟨False.elim, ?_⟩
    rintro ⟨vn, hvn, -⟩
    cases hvn

/-- The statements that use a function assign it where they do. -/
theorem emitsSet_doFuncUsedAt (h : ∀ tmpUa ∈ (st.body n).usedAt, UseFound st tmpUa) :
    EmitsSet st (doFuncUsedAt st .start n) fun a => ∃ vn, AssignedTo st n vn ∧
      a = .possible vn (st.id n) := by
  have hone : ∀ tmpUa ∈ (st.body n).usedAt, EmitsSet st (funcUsedAt st .start n tmpUa) fun a =>
      ∃ fsn lhs rhs1 vn, st.byId tmpUa.funcId = some fsn ∧ tmpUa.type = SI_TYPE_DF_GIMPLE ∧
        st.gimple tmpUa.where = .assign 2 lhs rhs1 ∧ Target st fsn lhs vn ∧
        a = .possible vn (st.id n) := by
    intro tmpUa hua
    obtain ⟨fsn, hfsn, hstmt⟩ := h tmpUa hua
    refine emitsSet_liftM hfsn ?_
    split
    · rename_i htype
      split
      · rename_i numOps lhs rhs1 hgs
        obtain ⟨hextra, htarget⟩ := hstmt htype numOps lhs rhs1 hgs
        rw [if_neg hextra]
        split
        · rename_i hnum
          refine emitsSet_pure.congr fun a => ⟨False.elim, ?_⟩
          rintro ⟨_, _, _, _, -, -, hgs', -⟩
          rw [hgs] at hgs'
          cases hgs'
          exact hnum rfl
        · rename_i hnum
          obtain rfl : numOps = 2 := Classical.not_not.mp hnum
          refine (emitsSet_funcAssigned (htarget rfl)).congr fun a => ?_
          constructor
          · rintro ⟨vn, hvn, ha⟩
            exact ⟨fsn, lhs, rhs1, vn, hfsn, htype, hgs, hvn, ha⟩
          · rintro ⟨fsn', lhs', rhs1', vn, hfsn', -, hgs', hvn, ha⟩
            rw [hfsn] at hfsn'
            rw [hgs] at hgs'
            cases hfsn'
            cases hgs'
            exact ⟨vn, hvn, ha⟩
      · rename_i hno
        refine emitsSet_pure.congr fun a => ⟨False.elim, ?_⟩
        rintro ⟨_, lhs, rhs1, _, -, -, hgs, -⟩
        exact hno 2 lhs rhs1 hgs
    · rename_i htype
      refine emitsSet_pure.congr fun a => ⟨False.elim, ?_⟩
      rintro ⟨_, _, _, _, -, htype', -⟩
      exact htype htype'
  refine (emitsSet_forM hone).congr fun a => ?_
  constructor
  · rintro ⟨tmpUa, hua, fsn, lhs, rhs1, vn, hfsn, htype, hgs, hvn, ha⟩
    exact ⟨vn, ⟨tmpUa, hua, fsn, lhs, rhs1, hfsn, htype, hgs, hvn⟩, ha⟩
  · rintro ⟨vn, ⟨tmpUa, hua, fsn, lhs, rhs1, hfsn, htype, hgs, hvn⟩, ha⟩
    exact ⟨tmpUa, hua, fsn, lhs, rhs1, vn, hfsn, htype, hgs, hvn, ha⟩

/-- Where the lookups succeed at the start of a thread, they give the same at any time. -/
theorem funcAssigned_eq {fsn : Nat} {op : Tree} (h : TargetFound st fsn op) :
    funcAssigned st loc n fsn op = funcAssigned st .start n fsn op := by
  induction op with
  | componentRef op =>
    obtain ⟨r, hr⟩ := Option.isSome_iff_exists.mp h
    rw [funcAssigned, funcAssigned, hr, getComponentRefVnl_of_start hr loc]
  | arrayRef op0 ih => exact ih h
  | memRef op0 offset ih => exact ih h
  | _ => rfl

theorem funcUsedAt_eq {tmpUa : UseAtList} (h : UseFound st tmpUa) :
    funcUsedAt st loc n tmpUa = funcUsedAt st .start n tmpUa := by
  obtain ⟨fsn, hfsn, hstmt⟩ := h
  have hpure : ∀ G : Nat → TraceM Unit, (liftM (some fsn) >>= G) = G fsn := fun G => rfl
  unfold funcUsedAt
  rw [hfsn, hpure, hpure]
  split
  · rename_i htype
    split
    · rename_i numOps lhs rhs1 hgs
      obtain ⟨hextra, htarget⟩ := hstmt htype numOps lhs rhs1 hgs
      rw [if_neg hextra, if_neg hextra]
      split
      · rfl
      · rename_i hnum
        exact funcAssigned_eq (htarget (not_not.mp hnum))
    · rfl
  · rfl

theorem doFuncUsedAt_eq (h : ∀ tmpUa ∈ (st.body n).usedAt, UseFound st tmpUa) :
    doFuncUsedAt st loc n = doFuncUsedAt st .start n := by
  unfold doFuncUsedAt
  generalize (st.body n).usedAt = usedAt at h ⊢
  induction usedAt with
  | nil => rfl
  | cons tmpUa usedAt ih =>
    have hcons : ∀ f : UseAtList → TraceM Unit,
        (tmpUa :: usedAt).forM f = f tmpUa >>= fun _ => usedAt.forM f := fun _ => rfl
    rw [hcons, hcons, funcUsedAt_eq (h tmpUa List.mem_cons_self),
      ih fun u hu => h u (List.mem_cons_of_mem tmpUa hu)]

/-! ## The actions of a function -/

theorem not_has_noCalls {st : FuncStore} {x : Side × Nat × Nat × Nat} : ¬ Has st.noCalls x := by
  obtain ⟨side, q, value, valueFlag⟩ := x
  cases side with
  | callees | callers =>
    rintro ⟨e, he, -⟩
    cases he

/-- The actions of a step that does something with these possible values. -/
theorem adds_of_does {F : TraceM Unit} {as : List Act} {D : Side × Nat × Nat × Nat → Prop}
    (hE : Emits st F (some ((), as))) (hD : Does possible F () D) :
    (∀ a ∈ as, a.Ok st.toFuncStore (funcValues possible)) ∧ possibleAfter as possible = possible ∧
      ∀ x, (∃ a ∈ as, a.Adds st.toFuncStore (funcValues possible) x) ↔ D x := by
  obtain ⟨s', hx, hposs, hgrows⟩ := hD ⟨st.noCalls, possible⟩ rfl
  rw [hE, Option.bind_some] at hx
  obtain ⟨s₁, hrun, heq⟩ := Option.map_eq_some_iff.mp hx
  cases heq
  have hafter : possibleAfter as possible = possible := (runActs_possible hrun).symm.trans hposs
  refine ⟨ok_of_runActs hrun, hafter, fun x => ?_⟩
  have hends := runActs_grows hrun x
  rw [hposs] at hends
  constructor
  · exact fun h => ((hgrows x).mp (hends.2 (.inr h))).resolve_left not_has_noCalls
  · exact fun h => (hends.1 ((hgrows x).mpr (.inr h))).resolve_left not_has_noCalls

variable {V : FuncValues}

/-- The trace of a function only reads, and adds what the function calls. -/
theorem exists_traceActs (h : ∀ P, (∀ vn value, funcValues P vn value → V vn value) →
    ∀ gs ∈ (st.body sn).stmts, StmtFound st sn gs P) :
    ∃ as, Emits st (traceStmts st sn) (some ((), as)) ∧
      (∀ vn value, Act.possible vn value ∉ as) ∧
      ∀ P, (∀ vn value, funcValues P vn value → V vn value) →
        (∀ a ∈ as, a.Ok st.toFuncStore (funcValues P)) ∧
        ∀ x, (∃ a ∈ as, a.Adds st.toFuncStore (funcValues P) x) ↔
          ∃ c, Calls st sn (funcValues P) c ∧ c.entries st sn x := by
  obtain ⟨r, hr⟩ : Static st (traceStmts st sn) := Static.forM fun gs => static_traceCallGs sn gs
  have hempty : ∀ vn value, funcValues (fun _ => []) vn value → V vn value := by
    rintro vn value ⟨e, he, -⟩
    cases he
  have hfirst := traceStmts_does (h (fun _ => []) hempty)
  cases r with
  | none =>
    obtain ⟨s', hx, -⟩ := hfirst ⟨st.noCalls, fun _ => []⟩ rfl
    rw [hr] at hx
    cases hx
  | some out =>
    obtain ⟨⟨⟩, as⟩ := out
    refine ⟨as, hr, fun vn value hmem => ?_, fun P hP => ?_⟩
    · obtain ⟨e, he, -⟩ := exists_value as (fun _ => []) hmem
      rw [(adds_of_does hr hfirst).2.1] at he
      cases he
    · obtain ⟨hok, -, hadds⟩ := adds_of_does hr (traceStmts_does (h P hP))
      exact ⟨hok, hadds⟩

/-- What a function does in a phase, whatever its thread has done before: it stores itself where it
    is assigned, and notes its calls. -/
structure FuncActs (st : TraceStore) (V : FuncValues) (n : st.Traced) (as : List Act) : Prop where
  emits : ∀ loc, Emits st (doPhase5Func st loc n) (some (traced st n.1 loc, as))
  possible : ∀ vn value, .possible vn value ∈ as ↔ AssignedTo st n.1 vn ∧ value = st.id n.1
  ok : ∀ P, (∀ vn value, funcValues P vn value → V vn value) →
    ∀ a ∈ as, a.Ok st.toFuncStore (funcValues P)
  adds : ∀ P, (∀ vn value, funcValues P vn value → V vn value) →
    ∀ x, (∃ a ∈ as, a.Adds st.toFuncStore (funcValues P) x) ↔
      ∃ c, Calls st n.1 (funcValues P) c ∧ c.entries st n.1 x

theorem exists_funcActs {n : st.Traced}
    (huses : ∀ tmpUa ∈ (st.body n.1).usedAt, UseFound st tmpUa)
    (hcalls : ∀ P, (∀ vn value, funcValues P vn value → V vn value) →
      ∀ gs ∈ (st.body n.1).stmts, StmtFound st n.1 gs P) : ∃ as, FuncActs st V n as := by
  obtain ⟨as, has, hset⟩ := emitsSet_doFuncUsedAt huses
  obtain ⟨bs, hbs, hreads, htrace⟩ := exists_traceActs hcalls
  have hstored : ∀ a ∈ as, ∃ vn value, a = .possible vn value := by
    intro a ha
    obtain ⟨vn, -, ha⟩ := (hset a).mp ha
    exact ⟨vn, _, ha⟩
  have hemits : ∀ loc, Emits st (doPhase5Func st loc n) (some (traced st n.1 loc, as ++ bs)) := by
    intro loc
    have hpure : Emits st (pure (traced st n.1 loc)) (some (traced st n.1 loc, [])) := fun _ => rfl
    unfold doPhase5Func
    rw [doFuncUsedAt_eq huses, doTraceCall_eq]
    rw [← List.append_nil bs]
    exact emits_bind has (emits_bind hbs hpure)
  refine ⟨as ++ bs, hemits, fun vn value => ?_, fun P hP a ha => ?_, fun P hP x => ?_⟩
  · rw [List.mem_append, or_iff_left (hreads vn value), hset]
    constructor
    · rintro ⟨vn', h, heq⟩
      cases heq
      exact ⟨h, rfl⟩
    · rintro ⟨h, rfl⟩
      exact ⟨vn, h, rfl⟩
  · obtain ha | ha := List.mem_append.mp ha
    · obtain ⟨vn, value, rfl⟩ := hstored a ha
      trivial
    · exact (htrace P hP).1 a ha
  · rw [← (htrace P hP).2 x]
    constructor
    · rintro ⟨a, ha, hx⟩
      obtain ha | ha := List.mem_append.mp ha
      · obtain ⟨vn, value, rfl⟩ := hstored a ha
        cases hx
      · exact ⟨a, ha, hx⟩
    · rintro ⟨a, ha, hx⟩
      exact ⟨a, List.mem_append_right as ha, hx⟩

/-! ## All phases -/

section

variable (st : TraceStore) (inits : List (TargetField.VarNode × GvarInit.InitTree))
  (fs : List (Nat × st.Traced))

/-- **A function is stored at a variable or a field**: an initialiser gives it there, or a statement
    assigns it. -/
def Stored (vn value : Nat) : Prop :=
  (.func, value) ∈ GvarInit.givenTo st inits vn ∨
    ∃ n ∈ fs, AssignedTo st n.2.1 vn ∧ value = st.id n.2.1

/-- The initialisers fit, in a program with its type nodes, and no value of them strays; no number
    is stored with two kinds, and all that the functions use and call is found. -/
structure Analysable : Prop where
  detailed : GvarInit.Detailed st
  fit : GvarInit.FitAll st inits
  stay : ∀ x ∈ inits, ¬ GvarInit.Strays st x.2 (some x.1.id)
  one_kind : ∀ vn, OneKind (GvarInit.givenTo st inits vn)
  apart : ∀ vn, ∀ n ∈ fs, AssignedTo st n.2.1 vn →
    ∀ flag, (flag, st.id n.2.1) ∈ GvarInit.givenTo st inits vn → flag = .func
  uses : ∀ n ∈ fs, ∀ tmpUa ∈ (st.body n.2.1).usedAt, UseFound st tmpUa
  calls : ∀ n ∈ fs, ∀ P, (∀ vn value, funcValues P vn value → Stored st inits fs vn value) →
    ∀ gs ∈ (st.body n.2.1).stmts, StmtFound st n.2.1 gs P

/-- Phases 4, 5 and 6. -/
def doAllPhases (order : PhaseOrder st fs) : TraceM Unit := do
  GvarInit.doPhase4Gvars st inits
  doPhases order

variable {st inits fs}

/-- The functions among the values are those that are stored. -/
theorem funcValues_stored (h : Analysable st inits fs) {possible : Nat → List PossibleList}
    (hfirst : ∀ vn, FirstOnce (GvarInit.givenTo st inits vn)
      ((possible vn).map PossibleList.pair)) {as : List Act}
    (has : ∀ vn value, .possible vn value ∈ as ↔
      ∃ n ∈ fs, AssignedTo st n.2.1 vn ∧ value = st.id n.2.1) (vn value : Nat) :
    funcValues (possibleAfter as possible) vn value ↔ Stored st inits fs vn value := by
  have hgiven : ∀ flag v, (∃ e ∈ possible vn, e.valueFlag = flag ∧ e.value = v) ↔
      (flag, v) ∈ GvarInit.givenTo st inits vn := by
    intro flag v
    rw [← (hfirst vn).mem, List.mem_map]
    constructor
    · rintro ⟨e, he, rfl, rfl⟩
      exact ⟨e, he, rfl⟩
    · rintro ⟨e, he, heq⟩
      cases heq
      exact ⟨e, he, rfl, rfl⟩
  constructor
  · rintro ⟨e, he, hflag, rfl⟩
    obtain he | ⟨-, hmem, -⟩ := (mem_possibleAfter as).mp he
    · exact .inl ((hgiven _ _).mp ⟨e, he, hflag, rfl⟩)
    · exact .inr ((has _ _).mp hmem)
  · rintro (hin | hassigned)
    · obtain ⟨e, he, hflag, hval⟩ := (hgiven _ _).mpr hin
      exact ⟨e, (mem_possibleAfter as).mpr (.inl he), hflag, hval⟩
    · obtain ⟨e, he, hval⟩ := exists_value as possible ((has vn value).mpr hassigned)
      refine ⟨e, he, ?_, hval⟩
      obtain he | ⟨heq, -⟩ := (mem_possibleAfter as).mp he
      · obtain ⟨n, hn, hto, rfl⟩ := hassigned
        exact h.apart vn n hn hto _ ((hgiven _ _).mp ⟨e, he, rfl, hval⟩)
      · rw [heq]

/-- The actions of all functions, those that are processed doing what they should. -/
structure ActsRight (st : TraceStore) (inits : List (TargetField.VarNode × GvarInit.InitTree))
    (fs : List (Nat × st.Traced)) (acts : st.Traced → Locals → Option (List Act)) : Prop where
  emits : ∀ n loc, Emits st (doPhase5Func st loc n)
    ((acts n loc).map fun as => (traced st n.1 loc, as))
  right : ∀ n ∈ fs, ∃ as, (∀ loc, acts n.2 loc = some as) ∧
    FuncActs st (Stored st inits fs) n.2 as

theorem exists_actsRight (h : Analysable st inits fs) : ∃ acts, ActsRight st inits fs acts := by
  have hone : ∀ n : st.Traced, ∃ acts : Locals → Option (List Act),
      (∀ loc, Emits st (doPhase5Func st loc n)
        ((acts loc).map fun as => (traced st n.1 loc, as))) ∧
      ((∃ b, (b, n) ∈ fs) → ∃ as, (∀ loc, acts loc = some as) ∧
        FuncActs st (Stored st inits fs) n as) := by
    intro n
    by_cases hn : ∃ b, (b, n) ∈ fs
    · obtain ⟨b, hmem⟩ := hn
      obtain ⟨as, has⟩ := exists_funcActs (h.uses _ hmem) (h.calls _ hmem)
      exact ⟨fun _ => some as, has.emits, fun _ => ⟨as, fun _ => rfl, has⟩⟩
    · obtain ⟨acts, -, hacts⟩ := exists_acts n
      exact ⟨acts, hacts, fun hmem => absurd hmem hn⟩
  choose acts hemits hright using hone
  exact ⟨acts, hemits, fun n hn => hright n.2 ⟨n.1, hn⟩⟩

variable {acts : st.Traced → Locals → Option (List Act)} {order : List (Nat × st.Traced)}

theorem ActsRight.goes (h : ActsRight st inits fs acts) (hperm : order.Perm fs) :
    Goes acts order := by
  intro x hx
  obtain ⟨n, hn, heq⟩ := mem_of_withLocals hx
  obtain ⟨as, has, -⟩ := h.right n (hperm.mem_iff.mp hn)
  rw [← heq, has]
  rfl

/-- The actions in an order are those of the functions. -/
theorem ActsRight.mem (h : ActsRight st inits fs acts) (hperm : order.Perm fs) (a : Act) :
    a ∈ actsOf acts order ↔ ∃ n ∈ fs, ∃ as,
      FuncActs st (Stored st inits fs) n.2 as ∧ (∀ loc, acts n.2 loc = some as) ∧ a ∈ as := by
  unfold actsOf
  rw [List.mem_flatMap]
  constructor
  · rintro ⟨x, hx, ha⟩
    obtain ⟨n, hn, heq⟩ := mem_of_withLocals hx
    obtain ⟨as, has, hfunc⟩ := h.right n (hperm.mem_iff.mp hn)
    rw [← heq, has] at ha
    exact ⟨n, hperm.mem_iff.mp hn, as, hfunc, has, ha⟩
  · rintro ⟨n, hn, as, -, has, ha⟩
    obtain ⟨loc, hx⟩ := exists_withLocals (hperm.mem_iff.mpr hn)
    refine ⟨_, hx, ?_⟩
    rw [has]
    exact ha

/-- Functions are assigned where the statements assign them. -/
theorem ActsRight.assigned (h : ActsRight st inits fs acts) (hperm : order.Perm fs)
    (vn value : Nat) : .possible vn value ∈ actsOf acts order ↔
      ∃ n ∈ fs, AssignedTo st n.2.1 vn ∧ value = st.id n.2.1 := by
  rw [h.mem hperm]
  refine exists_congr fun n => and_congr_right fun hn => ?_
  constructor
  · rintro ⟨as, hfunc, -, ha⟩
    exact (hfunc.possible vn value).mp ha
  · intro ha
    obtain ⟨as, has, hfunc⟩ := h.right n hn
    exact ⟨as, hfunc, has, (hfunc.possible vn value).mpr ha⟩

/-- With the stored functions as values the actions add the calls. -/
theorem ActsRight.adds (h : ActsRight st inits fs acts) (hperm : order.Perm fs)
    {P : Nat → List PossibleList} (hP : funcValues P = Stored st inits fs) :
    (∀ a ∈ actsOf acts order, a.Ok st.toFuncStore (funcValues P)) ∧
      ∀ x, (∃ a ∈ actsOf acts order, a.Adds st.toFuncStore (funcValues P) x) ↔
        ∃ n ∈ fs, ∃ c, Calls st n.2.1 (Stored st inits fs) c ∧ c.entries st n.2.1 x := by
  have hle : ∀ vn value, funcValues P vn value → Stored st inits fs vn value := by
    rw [hP]
    exact fun _ _ h => h
  refine ⟨fun a ha => ?_, fun x => ⟨?_, ?_⟩⟩
  · obtain ⟨n, hn, as, hfunc, -, ha⟩ := (h.mem hperm a).mp ha
    exact hfunc.ok P hle a ha
  · rintro ⟨a, ha, hx⟩
    obtain ⟨n, hn, as, hfunc, -, ha⟩ := (h.mem hperm a).mp ha
    have hc := (hfunc.adds P hle x).mp ⟨a, ha, hx⟩
    rw [hP] at hc
    exact ⟨n, hn, hc⟩
  · rintro ⟨n, hn, hc⟩
    obtain ⟨as, has, hfunc⟩ := h.right n hn
    rw [← hP] at hc
    obtain ⟨a, ha, hx⟩ := (hfunc.adds P hle x).mpr hc
    exact ⟨a, (h.mem hperm a).mpr ⟨n, hn, as, hfunc, has, ha⟩, hx⟩

/-- **The call graph after phases 4 to 6**, whatever the order of the functions: a function has the
    callees that its statements call, through what is stored anywhere in the program, and a function
    with a body has the callers that call it or an alias of it. -/
theorem callGraph_stored (h : Analysable st inits fs) (order : PhaseOrder st fs) :
    ∃ s, doAllPhases st inits fs order ⟨st.noCalls, fun _ => []⟩ = some ((), s) ∧
      ∀ x, Has s.fns x ↔ ∃ n ∈ fs, ∃ c,
        Calls st n.2.1 (Stored st inits fs) c ∧ c.entries st n.2.1 x := by
  obtain ⟨s₄, hrun₄, hfns, hfirst⟩ :=
    GvarInit.doPhase4Gvars_possible st h.detailed h.fit h.stay st.noCalls
  obtain ⟨acts, hacts⟩ := exists_actsRight h
  have hvals : funcValues (possibleAfter (actsOf acts order.phase5) s₄.possible) =
      Stored st inits fs := by
    funext vn value
    exact propext (funcValues_stored h (fun vn => hfirst vn (h.one_kind vn))
      (hacts.assigned order.perm5) vn value)
  obtain ⟨hok, hadds⟩ := hacts.adds order.perm5 hvals
  -- phase 6 has all that phase 5 has stored
  have hsame : ∀ a, a ∈ actsOf acts order.phase6 ↔ a ∈ actsOf acts order.phase5 := fun a => by
    rw [hacts.mem order.perm6, hacts.mem order.perm5]
  have hrounds := @runActs_rounds st _ _ hsame s₄
  obtain ⟨s, hs⟩ := Option.isSome_iff_exists.mp (hrounds.1.mpr hok)
  refine ⟨s, ?_, fun x => ?_⟩
  · have hrun : doAllPhases st inits fs order ⟨st.noCalls, fun _ => []⟩ =
        (GvarInit.doPhase4Gvars st inits ⟨st.noCalls, fun _ => []⟩).bind
          fun out => doPhases order out.2 := rfl
    rw [hrun, hrun₄, Option.bind_some, doPhases_eq hacts.emits order (hacts.goes order.perm5)
      (hacts.goes order.perm6), hs]
    rfl
  · rw [(hrounds.2 s hs).1 x, hfns, or_iff_right not_has_noCalls]
    exact hadds x

end

/-! ## A function in a static structure -/

open TargetField (FieldGraph)
open TypeDetail (TypeGraph smallGraph intTree childrenOf)

/-- `struct ops { void (*fn)(void); }`, `void (*)(void)` and `void (void)`. -/
def opsGraph : TypeGraph :=
  smallGraph
    [⟨.record, some 8, false, 0, none, 0, [], [⟨0, some (bytesOf "fn"), 1⟩], []⟩,
      ⟨.pointer, some 8, false, 64, none, 2, [], [], []⟩,
      ⟨.function, some 1, false, 0, none, 3, [], [], []⟩]
    (by simp)

/-- What holds of the three types and of an integer. -/
theorem opsGraph_all {P : Nat → TypeDetail.TypeTree → Prop} (h : ∀ n < 3, P n (opsGraph.tree n))
    (hint : ∀ n, P (n + 3) intTree) (n : Nat) : P n (opsGraph.tree n) := by
  by_cases hn : n < 3
  · exact h n hn
  · obtain ⟨m, rfl⟩ := Nat.exists_eq_add_of_le' (Nat.le_of_not_lt hn)
    exact hint m

theorem opsGraph_record (n : Nat) :
    TargetField.isRecord (opsGraph.tree n).code = true → n = 0 :=
  opsGraph_all (P := fun n tr => TargetField.isRecord tr.code = true → n = 0) (by decide)
    (fun _ h => by cases h) n

theorem opsGraph_pointer (n : Nat) : (opsGraph.tree n).code = .pointer → n = 1 :=
  opsGraph_all (P := fun n tr => tr.code = .pointer → n = 1) (by decide) (fun _ h => by cases h) n

def opsFields : FieldGraph where
  toTypeGraph := opsGraph
  nodes n := ⟨true, false, false, 0, 0, TypeDetail.nextOf opsGraph n, childrenOf opsGraph n⟩
  typeCode n := (opsGraph.tree n).code
  fieldVn _ := 7
  field _ := ⟨⟨none, 1, 1⟩, some (bytesOf "fn"), some 0, 1, none, ⟨none, none, 0⟩⟩
  rank n := if n = 1 then 1 else 0
  rank_child := by
    intro tn decl name t h hne hrec
    obtain rfl := opsGraph_record t hrec
    match tn with
    | 0 => exact absurd rfl hne
    | 1 | 2 => cases h
    | n + 3 => cases h
  rank_next := by
    intro tn t hcode hnext
    obtain rfl := opsGraph_pointer tn hcode
    cases hnext
    decide
  depth _ := 0
  depth_elem := opsGraph_all (P := fun _ tr => tr.code = .array → 0 < 0) (by decide)
    fun _ h => by cases h

/-- `static struct ops ops = { .fn = b };`, and in `a` the statements `_0 = ops.fn` and
    `_0 ()`. -/
def opsStore : TraceStore where
  toFuncStore := opsFuncs
  toFieldGraph := opsFields
  body p := ⟨[], [], [], [], if p = 0 then [0, 1] else []⟩
  gimple := fun
    | 0 => .assign 2 (.ssaName 0) (some (.componentRef 0))
    | _ => .call (some (.ssaName 0))
  ssa _ := ⟨some 0, none⟩
  varDecl _ := ⟨none, false, false, false, false, ⟨none, 0, 0⟩⟩
  varNode _ := 0
  componentRef _ := ⟨.decl 0, some 0, false⟩

/-- The variable `ops` with its initialiser. -/
def opsInits : List (TargetField.VarNode × GvarInit.InitTree) :=
  [(⟨100, some 0⟩, .constructor 0 (some [⟨some 0, .addrExpr 1 0 (.functionDecl 0)⟩]))]

/-- `a` is processed. -/
def opsTraced : List (Nat × opsStore.Traced) := [(0, ⟨0, Nat.two_pos, rfl⟩)]

theorem ops_detailed : GvarInit.Detailed opsStore where
  node type tn htn := by
    obtain rfl : type = tn := by
      unfold TypeDetail.target at htn
      split at htn
      · exact Option.some.inj htn
      · cases htn
    refine ⟨rfl, rfl, rfl, fun i fd decl name t hfd hchild => ?_⟩
    match type, i with
    | 0, 0 =>
      cases hfd
      cases hchild
      exact ⟨rfl, rfl⟩
    | 0, i + 1 => cases hfd
    | 1, i | 2, i => cases hfd
    | n + 3, i => cases hfd
  toldApart tn hrec := by
    obtain rfl := opsGraph_record tn hrec
    exact .places (List.pairwise_singleton _ _)

theorem ops_leaf : GvarInit.Leaf opsStore (.addrExpr 1 0 (.functionDecl 0)) := by
  have hb : GvarInit.funcSinode opsStore 0 = some (some 1) := by decide
  exact .functionDecl 1 0 hb

theorem ops_fit : GvarInit.FitAll opsStore opsInits := by
  intro x hx
  obtain rfl := List.mem_singleton.mp hx
  refine ⟨0, rfl, .record rfl rfl (fun x hx => ?_) fun x hx fd _ _ => ?_⟩
  · obtain rfl := List.mem_singleton.mp hx
    exact ⟨_, List.mem_cons_self, rfl⟩
  · obtain rfl := List.mem_singleton.mp hx
    exact .leaf ops_leaf

/-- The initialiser gives `b` to the field. -/
theorem ops_given : GvarInit.givenAll opsStore opsInits = [(some 7, .func, opsFuncs.id 1, 0)] := by
  have hb : GvarInit.funcSinode opsStore 0 = some (some 1) := by decide
  have hown : GvarInit.ownValue opsStore (.addrExpr 1 0 (.functionDecl 0)) =
      some (.func, opsFuncs.id 1, 0) := by
    simp only [GvarInit.ownValue, GvarInit.addrValue, hb]
    rfl
  show GvarInit.given opsStore (.addrExpr 1 0 (.functionDecl 0)) (some 7) ++ [] ++ [] = _
  rw [GvarInit.given_own opsStore hown]
  rfl

theorem ops_stays : ∀ x ∈ opsInits, ¬ GvarInit.Strays opsStore x.2 (some x.1.id) := by
  intro x hx h
  obtain rfl := List.mem_singleton.mp hx
  cases h with
  | outside hstart | element hstart => cases hstart
  | inner hu => cases hu
  | field hstart hmem h =>
    cases hstart
    cases List.mem_singleton.mp hmem
    exact ops_leaf.not_strays h

/-- The field is found from the variable. -/
theorem ops_lookup (loc : Locals) :
    TargetField.getComponentRefVnl opsFields loc ⟨.decl 0, some 0, false⟩ = some (some 7) := by
  have hfield : TargetField.getTargetField0 opsFields 0 (some 0) = some (some ⟨0, 7, some 1⟩) :=
    TargetField.getTargetField0_toldApart (i := 0) rfl (.places (List.pairwise_singleton _ _)) rfl
      ⟨rfl, rfl⟩
  show (TargetField.getTargetField0 opsFields 0 (some 0)).map _ = _
  rw [hfield]
  rfl

theorem ops_byId : opsFuncs.byId (opsFuncs.id 1) = some 1 := by
  simp [opsFuncs]

theorem ops_assigned {n vn : Nat} : ¬ AssignedTo opsStore n vn := by
  rintro ⟨tmpUa, hua, -⟩
  cases hua

/-- What is given is `b`, to the field. -/
theorem ops_givenTo {vn : Nat} {p : ValueFlag × Nat}
    (h : p ∈ GvarInit.givenTo opsStore opsInits vn) : vn = 7 ∧ p = (.func, opsFuncs.id 1) := by
  unfold GvarInit.givenTo at h
  rw [ops_given] at h
  obtain ⟨x, hx, rfl⟩ := List.mem_map.mp h
  obtain ⟨hx, hvn⟩ := List.mem_filter.mp hx
  obtain rfl := List.mem_singleton.mp hx
  exact ⟨(Option.some.inj (of_decide_eq_true hvn)).symm, rfl⟩

/-- The only function that is stored is `b`, in the field. -/
theorem ops_stored {fs : List (Nat × opsStore.Traced)} {vn value : Nat}
    (h : Stored opsStore opsInits fs vn value) : value = opsFuncs.id 1 := by
  obtain hin | ⟨n, -, hto, -⟩ := h
  · exact congrArg Prod.snd (ops_givenTo hin).2
  · exact absurd hto ops_assigned

theorem ops_analysable : Analysable opsStore opsInits opsTraced where
  detailed := ops_detailed
  fit := ops_fit
  stay := ops_stays
  one_kind vn p hp q hq _ := by rw [(ops_givenTo hp).2, (ops_givenTo hq).2]
  apart vn n hn hto := absurd hto ops_assigned
  uses n hn tmpUa hua := by cases hua
  calls n hn P hP gs hgs := by
    obtain rfl := List.mem_singleton.mp hn
    have hno : ∀ a b, ¬ PhiArg opsStore a b := by
      intro a b h
      cases h
    have hstart : ∀ {a b}, ¬ Relation.TransGen (PhiArg opsStore) a b := by
      intro a b h
      obtain ⟨c, hc, -⟩ := Relation.TransGen.head'_iff.mp h
      exact hno _ _ hc
    obtain rfl | hgs := List.mem_cons.mp hgs
    · trivial
    · obtain rfl := List.mem_singleton.mp hgs
      intro fns
      refine ⟨fun m hm => ?_, fun m hm => absurd hm hstart, fun hdeep => ?_⟩
      · obtain rfl := (Relation.reflTransGen_iff_eq_or_transGen.mp hm).resolve_right hstart
        have hread : rhsActs opsStore ⟨some 0, some 1⟩ 0 1 (defRhs1 opsStore 0) =
            some [.possibleOf 0 1 7] :=
          congrArg (readActs 0 1) (ops_lookup ⟨some 0, some 1⟩)
        refine ⟨⟨_, hread, fun a ha => ?_⟩, ⟨_, rfl, fun a ha => (by cases ha)⟩⟩
        obtain rfl := List.mem_singleton.mp ha
        intro value hv
        refine ⟨1, ?_, .inl rfl⟩
        rw [ops_stored (hP 7 value hv)]
        exact ops_byId
      · obtain ⟨path, x, -, -, hchain⟩ := hdeep
        exact hstart (transGen_of_chain hchain)

/-- After the phases `b` is a callee of `a`, and `a` a caller of `b`. -/
theorem ops_called : ∃ s, doAllPhases opsStore opsInits opsTraced
      ⟨opsTraced, opsTraced, .refl _, .refl _⟩ ⟨opsStore.noCalls, fun _ => []⟩ = some ((), s) ∧
    Listed (s.fns 0).callees (opsFuncs.id 1) 0 ∧ Listed (s.fns 1).callers (opsFuncs.id 0) 0 := by
  obtain ⟨s, hs, hhas⟩ := callGraph_stored ops_analysable ⟨opsTraced, opsTraced, .refl _, .refl _⟩
  have hstored : Stored opsStore opsInits opsTraced 7 (opsFuncs.id 1) := by
    left
    unfold GvarInit.givenTo
    rw [ops_given]
    exact List.mem_map.mpr ⟨_, List.mem_filter.mpr ⟨List.mem_singleton.mpr rfl, rfl⟩, rfl⟩
  have hcalls : Calls opsStore 0 (Stored opsStore opsInits opsTraced) (.sinode 1) :=
    ⟨1, List.mem_cons_of_mem _ List.mem_cons_self, 0, .refl,
      .inl ⟨_, rfl, .componentRef (ops_lookup _) hstored ops_byId⟩⟩
  refine ⟨s, hs, ?_, ?_⟩
  · exact (hhas (.callees, 0, opsFuncs.id 1, 0)).mpr
      ⟨_, List.mem_singleton.mpr rfl, _, hcalls, rfl, rfl, rfl⟩
  · exact (hhas (.callers, 1, opsFuncs.id 0, 0)).mpr
      ⟨_, List.mem_singleton.mpr rfl, _, hcalls, .body rfl, rfl, rfl⟩

end Srcinv.Analysis.IndirectCalls
