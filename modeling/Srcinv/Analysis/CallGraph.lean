import Srcinv.Lib.Grounded
import Srcinv.Lib.Run
import Srcinv.Analysis.SinodeNames
import Srcinv.Analysis.FuncNode
import Srcinv.Analysis.Xnode

/-!
# Tracing calls (phases 5 and 6 of `analysis/gcc/c.cc`, `add_caller` and `add_callee`)

A call is noted on both sides: the callee in `callees` of the caller, the caller in `callers` of
the callee.  A callee without a body has no `func_node`; its alias attribute says which symbols
stand for it, and the caller is noted there.

* `Resolves` — a symbol stands for a function with a body.
* `returns_iff_grounded` — the alias attributes are resolved exactly when no chain of them is
  endless or ends at a symbol that is not in the store.
* `callGraph_exact` — both sides agree and all marks are right in every state of a run, and every
  alias is resolved, exactly along the runs that meet `MarksRight`.
-/

namespace Srcinv.Analysis

open Srcinv.Lib

def SI_TYPE_DF_GIMPLE : Int := 1

def SI_TYPE_DF_ASM : Int := 2

/-- The tree of an attribute value, with the resfile of its sibuf. -/
inductive AttrNode where
  | null
  | identifier (rf : Nat) (id : Name)
  | string (rf : Nat) (str : Name)
  | other
  deriving DecidableEq, Repr

/-- `struct attr_list` with its `attrval_list`. -/
structure AttrList where
  attrName : Name
  values : List AttrNode
  deriving DecidableEq, Repr

/-- The sinodes as the phases after `getbase` find them: each has its own id, those of the first
type are files and have neither data nor attributes. -/
structure FuncStore extends SinodeStore where
  base : StoreBase toSinodeStore
  id : Nat → Nat
  id_inj : ∀ p < next, ∀ q < next, id p = id q → p = q
  /-- `sinode_search` by `SEARCH_BY_ID`. -/
  byId : Nat → Option Nat
  byId_id : ∀ v p, byId v = some p → p < next ∧ id p = v
  attributes : Nat → List AttrList
  file_data : ∀ p < next, id p < 2 ^ ID_VALUE_BITS → (sn p).data = none ∧ attributes p = []
  /-- The function declaration at an address, and the resfile of its sibuf. -/
  decl : Nat → FuncTree
  resfile : Nat → Nat

/-- The `func_node` of each sinode that has one. -/
abbrev FuncNodes := Nat → FuncNode

variable (st : FuncStore)

/-- A sinode with a `func_node`. -/
def HasBody (p : Nat) : Prop := (st.sn p).data.isSome = true

instance (p : Nat) : Decidable (HasBody st p) := inferInstanceAs (Decidable (_ = true))

/-! ## Noting a call -/

/-- `__add_call` and `callf_stmt_list_add` to the callees of `sn`. -/
def noteCallee (sn value valueFlag : Nat) (bodyMissing : Bool) (type : Int) («where» : Nat)
    (fns : FuncNodes) : FuncNodes :=
  Function.update fns sn { fns sn with
    callees := addStmt value valueFlag type «where»
      (addCall (fns sn).callees value valueFlag bodyMissing) }

/-- `add_callee`. -/
def addCallee (callerFsn calleeFsn : Nat) («where» : Nat) (type : Int) (fns : FuncNodes) :
    FuncNodes :=
  noteCallee callerFsn (st.id calleeFsn) 0 (decide ¬ HasBody st calleeFsn) type «where» fns

/-- `add_caller`; a `NULL` callee is dereferenced. -/
def addCaller (addCallerAlias : Option (Nat → Nat → FuncNodes → Option FuncNodes))
    (calleeFsn : Option Nat) (callerFsn : Nat) (fns : FuncNodes) : Option FuncNodes :=
  match calleeFsn with
  | none => none
  | some p =>
    if HasBody st p then
      some (Function.update fns p { fns p with
        callers := addCall (fns p).callers (st.id callerFsn) 0 false })
    else
      match addCallerAlias with
      | none => some fns
      | some addCallerAlias => addCallerAlias p callerFsn fns

/-- The values of the first attribute `alias`. -/
def aliasValues (attributes : List AttrList) : List AttrNode :=
  match attributes.find? fun tmp => tmp.attrName = bytesOf "alias" with
  | none => []
  | some tmp => tmp.values

/-- The resfile and the name that a value stands for; `none` is a `BUG`. -/
def aliasName : AttrNode → Option (Nat × Name)
  | .identifier rf id => (getNodeName id).map fun name => (rf, name)
  | .string rf str => if NAME_MAX ≤ str.length then none else some (rf, str.takeWhile (· ≠ 0))
  | .null | .other => none

/-- The search for the symbol that an alias names. -/
def aliasSinode (rf : Nat) (name : Name) : Option Nat :=
  sinodeSearchNameResfile st.toSinodeStore .funcGlobal rf st.builtin name

/-- `callee_alias_add_caller` with a bound on the depth of the calls. -/
def calleeAliasAddCaller : Nat → Nat → Nat → FuncNodes → Option FuncNodes
  | 0, _, _, _ => none
  | k + 1, callee, caller, fns =>
    (aliasValues (st.attributes callee)).foldlM (fun fns node =>
      if node = .null then some fns
      else (aliasName node).bind fun (rf, name) =>
        addCaller st (some (calleeAliasAddCaller k)) (aliasSinode st rf name) caller fns) fns

/-- As many calls as there are sinodes are enough. -/
def aliasAddCaller : Nat → Nat → FuncNodes → Option FuncNodes :=
  calleeAliasAddCaller st (st.next + 1)

/-! ## The steps -/

/-- `call_func_decl` with the declaration at `n`. -/
def callFuncDecl (sn gs n : Nat) (fns : FuncNodes) : Option FuncNodes :=
  (getFuncSinode st.toSinodeStore (st.resfile n) (st.decl n) true).bind fun callFnSn =>
    match callFnSn with
    | none => some (noteCallee sn n 1 true SI_TYPE_DF_GIMPLE gs fns)
    | some p =>
      addCaller st (some (aliasAddCaller st)) (some p) sn
        (noteCallee sn (st.id p) 0 false SI_TYPE_DF_GIMPLE gs fns)

/-- The loop of `add_possible_callee` for an entry that is a function. -/
def possibleCallee (callerFsn gs value : Nat) (fns : FuncNodes) : Option FuncNodes :=
  match st.byId value with
  | none => none
  | some calleeFsn =>
    addCaller st (some (aliasAddCaller st)) (some calleeFsn) callerFsn
      (addCallee st callerFsn calleeFsn gs SI_TYPE_DF_GIMPLE fns)

/-- A call of an internal function in `__trace_call_gs`. -/
def internalCall (sn gs internalFn : Nat) (fns : FuncNodes) : FuncNodes :=
  noteCallee sn internalFn 0 true SI_TYPE_DF_GIMPLE gs fns

/-- The end of `indcfg1_do_call`, for a call in assembly. -/
def asmCall (curSn targetSn ip : Nat) (fns : FuncNodes) : Option FuncNodes :=
  addCaller st none (some targetSn) curSn (addCallee st curSn targetSn ip SI_TYPE_DF_ASM fns)

/-- A function whose calls are traced: its sinode has a `func_node`. -/
def FuncStore.Traced : Type := { f : Nat // f < st.next ∧ HasBody st f }

/-- A step of the tracing.  `add_possible_callee` is one step for each function in the list. -/
inductive TraceStep where
  | funcDecl (sn : st.Traced) (gs n : Nat)
  | possible (sn : st.Traced) (gs value : Nat)
  | internal (sn : st.Traced) (gs : Nat) (internalFn : Fin (2 ^ ID_VALUE_BITS))
  | asm (sn : st.Traced) (target : Fin st.next) (ip : Nat)

/-- One step; a failed `BUG_ON`, a `NULL` pointer and an endless recursion are `none`. -/
def traceStep (fns : FuncNodes) : TraceStep st → Option FuncNodes
  | .funcDecl sn gs n => callFuncDecl st sn.1 gs n fns
  | .possible sn gs value => possibleCallee st sn.1 gs value fns
  | .internal sn gs internalFn => some (internalCall sn.1 gs internalFn fns)
  | .asm sn target ip => asmCall st sn.1 target ip fns

/-- The lists as `func_node_new` makes them. -/
def FuncStore.noCalls : FuncNodes := fun p => ⟨(st.sn p).name, [], []⟩

/-! ## Aliases -/

/-- The sinode that an alias value names. -/
def aliasTarget (node : AttrNode) : Option Nat :=
  (aliasName node).bind fun (rf, name) => aliasSinode st rf name

/-- The symbol `q` is named by the alias attribute of `p`. -/
def AliasOf (p q : Nat) : Prop :=
  ∃ node ∈ aliasValues (st.attributes p), node ≠ .null ∧ aliasTarget st node = some q

/-- All that the alias attribute of `p` names is in the store. -/
def AliasFound (p : Nat) : Prop :=
  ∀ node ∈ aliasValues (st.attributes p), node ≠ .null → (aliasTarget st node).isSome

/-- The function `g` has a body and a chain of alias attributes leads from `p` to it. -/
inductive Resolves : Nat → Nat → Prop
  | body {p : Nat} (h : HasBody st p) : Resolves p p
  | chain {p q g : Nat} (h : ¬ HasBody st p) (hq : AliasOf st p q) (hr : Resolves q g) :
    Resolves p g

/-- An alias without a body of its own. -/
def AliasNext (p q : Nat) : Prop := AliasOf st p q ∧ ¬ HasBody st q

/-- No chain of aliases from `p` is endless or names a symbol that is not in the store. -/
def AliasEnds (p : Nat) : Prop := Grounded (AliasFound st) (AliasNext st) p

/-! ## Callers and callees that agree -/

/-- The function that an entry names has no `func_node`. -/
def Missing (value valueFlag : Nat) : Prop :=
  valueFlag = 0 → ∀ p < st.next, st.id p = value → ¬ HasBody st p

/-- Both sides of the call graph agree, and all entries are right. -/
structure GraphRight (fns : FuncNodes) : Prop where
  dual : ∀ f g : st.Traced, Listed (fns g.1).callers (st.id f.1) 0 ↔
    Listed (fns f.1).callees (st.id g.1) 0 ∨
      ∃ b < st.next, ¬ HasBody st b ∧ Listed (fns f.1).callees (st.id b) 0 ∧ Resolves st b g.1
  callees : ∀ f : st.Traced, ListRight (Missing st) (fns f.1).callees
  callers : ∀ f : st.Traced, ListRight (Missing st) (fns f.1).callers

/-- The sinode of the callee is looked up without a `BUG`. -/
def CalleeFound : TraceStep st → Prop
  | .funcDecl _ _ n =>
    (getFuncSinode st.toSinodeStore (st.resfile n) (st.decl n) true).isSome
  | .possible _ _ value => (st.byId value).isSome
  | .internal .. | .asm .. => True

/-- The aliases of the callee are resolved: the step comes back. -/
def AliasResolved (fns : FuncNodes) (e : TraceStep st) : Prop :=
  CalleeFound st e → (traceStep st fns e).isSome

/-- The condition: `call_func_decl` meets a callee without a body only where the entry is there
already, chains of aliases end, and a call in assembly goes to a body or adds nothing. -/
def MarksRight (fns : FuncNodes) : TraceStep st → Prop
  | .funcDecl sn _ n =>
    ∀ p, getFuncSinode st.toSinodeStore (st.resfile n) (st.decl n) true = some (some p) →
      HasBody st p ∨ (Listed (fns sn.1).callees (st.id p) 0 ∧ AliasEnds st p)
  | .possible _ _ value => ∀ p, st.byId value = some p → HasBody st p ∨ AliasEnds st p
  | .internal .. => True
  | .asm sn target _ =>
    HasBody st target ∨
      ∀ g : st.Traced, Resolves st target g.1 → Listed (fns g.1).callers (st.id sn.1) 0

variable {st}

/-! ## Resolving an alias -/

/-- A body stands for itself only. -/
theorem resolves_of_body {p g : Nat} (h : HasBody st p) : Resolves st p g ↔ g = p := by
  constructor
  · intro hr
    cases hr with
    | body => rfl
    | chain hno => exact absurd h hno
  · rintro rfl
    exact .body h

/-- Without a body a symbol stands for what its aliases stand for. -/
theorem resolves_of_no_body {p g : Nat} (h : ¬ HasBody st p) :
    Resolves st p g ↔ ∃ q, AliasOf st p q ∧ Resolves st q g := by
  constructor
  · intro hr
    cases hr with
    | body hb => exact absurd hb h
    | chain _ hq hr => exact ⟨_, hq, hr⟩
  · rintro ⟨q, hq, hr⟩
    exact .chain h hq hr

/-- The alias values name sinodes of the store. -/
theorem aliasTarget_lt {node : AttrNode} {q : Nat} (h : aliasTarget st node = some q) :
    q < st.next := by
  obtain ⟨⟨rf, name⟩, -, h⟩ := Option.bind_eq_some_iff.mp h
  exact (st.base.typed _ q (sinodeSearchNameResfile_mem h)).2

/-- The step of the loop over the values, by the symbol it goes on with. -/
theorem aliasName_bind (f : Option (Nat → Nat → FuncNodes → Option FuncNodes)) (node : AttrNode)
    (caller : Nat) (fns : FuncNodes) :
    ((aliasName node).bind fun (rf, name) =>
      addCaller st f (aliasSinode st rf name) caller fns) =
      (aliasTarget st node).bind fun q => addCaller st f (some q) caller fns := by
  unfold aliasTarget
  cases aliasName node with
  | none => rfl
  | some s =>
    obtain ⟨rf, name⟩ := s
    show addCaller st f (aliasSinode st rf name) caller fns = (aliasSinode st rf name).bind _
    cases aliasSinode st rf name with
    | none => rfl
    | some q => rfl

/-- The caller is noted at the functions in `T` and nothing else changes. -/
def AddsCaller (st : FuncStore) (caller : Nat) (T : Nat → Prop) (fns fns' : FuncNodes) : Prop :=
  ∀ g, (T g → fns' g = { fns g with callers := addCall (fns g).callers (st.id caller) 0 false }) ∧
    (¬ T g → fns' g = fns g)

variable {caller : Nat} {T T' : Nat → Prop} {fns fns' fns₁ fns₂ : FuncNodes}

theorem AddsCaller.refl : AddsCaller st caller (fun _ => False) fns fns :=
  fun _ => ⟨fun h => h.elim, fun _ => rfl⟩

theorem AddsCaller.congr (h : AddsCaller st caller T fns fns') (hT : ∀ g, T g ↔ T' g) :
    AddsCaller st caller T' fns fns' :=
  fun g => ⟨fun hg => (h g).1 ((hT g).mpr hg), fun hg => (h g).2 fun ht => hg ((hT g).mp ht)⟩

/-- A caller that is noted twice is in the list once. -/
theorem addCall_addCall (head : List CallfList) (value valueFlag : Nat) (bodyMissing : Bool) :
    addCall (addCall head value valueFlag bodyMissing) value valueFlag bodyMissing =
      addCall head value valueFlag bodyMissing := by
  obtain ⟨-, h⟩ | ⟨hno, -⟩ :=
    addCall_cases (addCall head value valueFlag bodyMissing) value valueFlag bodyMissing
  · exact h
  · exact absurd ((listed_addCall value valueFlag).mpr (Or.inr ⟨rfl, rfl⟩)) hno

theorem AddsCaller.trans (h : AddsCaller st caller T fns fns₁)
    (h' : AddsCaller st caller T' fns₁ fns₂) :
    AddsCaller st caller (fun g => T g ∨ T' g) fns fns₂ := by
  intro g
  by_cases hg : T g
  · refine ⟨fun _ => ?_, fun hn => absurd (Or.inl hg) hn⟩
    by_cases hg' : T' g
    · rw [(h' g).1 hg', (h g).1 hg]
      simp only [addCall_addCall]
    · rw [(h' g).2 hg', (h g).1 hg]
  · by_cases hg' : T' g
    · refine ⟨fun _ => ?_, fun hn => absurd (Or.inr hg') hn⟩
      rw [(h' g).1 hg', (h g).2 hg]
    · refine ⟨fun hor => absurd hor (not_or.mpr ⟨hg, hg'⟩), fun _ => ?_⟩
      rw [(h' g).2 hg', (h g).2 hg]

theorem addsCaller_accumulates : Accumulates (AddsCaller st caller) :=
  ⟨fun _ => AddsCaller.refl, fun _ _ _ _ _ h h' => h.trans h'⟩

/-- A function with a body is noted at once. -/
theorem addCaller_body {f : Option (Nat → Nat → FuncNodes → Option FuncNodes)} {p : Nat}
    (h : HasBody st p) : ∃ fns', addCaller st f (some p) caller fns = some fns' ∧
      AddsCaller st caller (Resolves st p) fns fns' := by
  refine ⟨_, if_pos h, fun g => ⟨fun hg => ?_, fun hg => ?_⟩⟩
  · obtain rfl := (resolves_of_body h).mp hg
    exact Function.update_self ..
  · rw [resolves_of_body h] at hg
    exact Function.update_of_ne hg ..

/-- **Within the depth the caller is noted at all that the aliases stand for.** -/
theorem calleeAliasAddCaller_of_groundedIn {k p : Nat}
    (h : GroundedIn (AliasFound st) (AliasNext st) k p) (fns : FuncNodes) :
    ∃ fns', calleeAliasAddCaller st k p caller fns = some fns' ∧
      AddsCaller st caller (fun g => ∃ q, AliasOf st p q ∧ Resolves st q g) fns fns' := by
  induction k generalizing p fns with
  | zero => exact h.elim
  | succ k ih =>
    obtain ⟨hfound, hnext⟩ := h
    have hcall : ∀ q, AliasOf st p q → ∀ fns, ∃ fns',
        addCaller st (some (calleeAliasAddCaller st k)) (some q) caller fns = some fns' ∧
          AddsCaller st caller (Resolves st q) fns fns' := by
      intro q hq fns
      by_cases hb : HasBody st q
      · exact addCaller_body hb
      · obtain ⟨fns', hx, hadds⟩ := ih (hnext q ⟨hq, hb⟩) fns
        refine ⟨fns', ?_, hadds.congr fun g => (resolves_of_no_body hb).symm⟩
        rw [addCaller, if_neg hb]
        exact hx
    have hloop : ∀ node ∈ aliasValues (st.attributes p), ∀ fns, ∃ fns',
        (if node = .null then some fns
          else (aliasName node).bind fun (rf, name) =>
            addCaller st (some (calleeAliasAddCaller st k)) (aliasSinode st rf name) caller fns) =
          some fns' ∧ AddsCaller st caller
            (fun g => node ≠ .null ∧ ∃ q, aliasTarget st node = some q ∧ Resolves st q g)
            fns fns' := by
      intro node hnode fns
      by_cases hnull : node = .null
      · exact ⟨fns, if_pos hnull, AddsCaller.refl.congr fun g => by simp [hnull]⟩
      · obtain ⟨q, hq⟩ := Option.isSome_iff_exists.mp (hfound node hnode hnull)
        obtain ⟨fns', hx, hadds⟩ := hcall q ⟨node, hnode, hnull, hq⟩ fns
        refine ⟨fns', ?_, hadds.congr fun g => by simp [hnull, hq]⟩
        rw [if_neg hnull, aliasName_bind, hq]
        exact hx
    obtain ⟨fns', hfold, hadds⟩ := foldlM_accumulates addsCaller_accumulates _ hloop fns
    refine ⟨fns', hfold, hadds.congr fun g => ?_⟩
    constructor
    · rintro ⟨node, hmem, hnull, q, hq, hr⟩
      exact ⟨q, ⟨node, hmem, hnull, hq⟩, hr⟩
    · rintro ⟨q, ⟨node, hmem, hnull, hq⟩, hr⟩
      exact ⟨node, hmem, hnull, q, hq, hr⟩

/-- A resolution that comes back stayed within the depth. -/
theorem groundedIn_of_calleeAliasAddCaller {k p : Nat} {fns fns' : FuncNodes}
    (h : calleeAliasAddCaller st k p caller fns = some fns') :
    GroundedIn (AliasFound st) (AliasNext st) k p := by
  induction k generalizing p fns fns' with
  | zero => cases h
  | succ k ih =>
    have hall := foldlM_some h
    have hone : ∀ node ∈ aliasValues (st.attributes p), node ≠ .null →
        ∃ q, aliasTarget st node = some q ∧ ∃ s₁ s₂,
          addCaller st (some (calleeAliasAddCaller st k)) (some q) caller s₁ = some s₂ := by
      intro node hnode hnull
      obtain ⟨s₁, s₂, hx⟩ := hall node hnode
      simp only [if_neg hnull, aliasName_bind] at hx
      obtain ⟨q, hq, hx⟩ := Option.bind_eq_some_iff.mp hx
      exact ⟨q, hq, s₁, s₂, hx⟩
    refine ⟨fun node hnode hnull => ?_, fun q hq => ?_⟩
    · obtain ⟨q, hq, -⟩ := hone node hnode hnull
      rw [hq]
      rfl
    · obtain ⟨⟨node, hnode, hnull, hnq⟩, hb⟩ := hq
      obtain ⟨q', hq', s₁, s₂, hx⟩ := hone node hnode hnull
      obtain rfl : q = q' := Option.some.inj (hnq.symm.trans hq')
      rw [addCaller, if_neg hb] at hx
      exact ih hx

/-- The bound on the depth is never what ends a resolution. -/
theorem groundedIn_iff_ends (p : Nat) :
    GroundedIn (AliasFound st) (AliasNext st) (st.next + 1) p ↔ AliasEnds st p := by
  have hU : ∀ a b, AliasNext st a b → b ∈ Finset.range st.next := by
    rintro a b ⟨⟨node, -, -, hb⟩, -⟩
    exact Finset.mem_range.mpr (aliasTarget_lt hb)
  unfold AliasEnds
  rw [grounded_iff_in hU, Finset.card_range]

/-- **An alias is resolved exactly when its chains end.** -/
theorem returns_iff_grounded (p caller : Nat) (fns : FuncNodes) :
    (aliasAddCaller st p caller fns).isSome ↔ AliasEnds st p := by
  rw [← groundedIn_iff_ends]
  constructor
  · intro h
    obtain ⟨fns', hx⟩ := Option.isSome_iff_exists.mp h
    exact groundedIn_of_calleeAliasAddCaller hx
  · intro h
    have hx : ∃ fns', aliasAddCaller st p caller fns = some fns' :=
      (calleeAliasAddCaller_of_groundedIn h fns).imp fun _ => And.left
    exact Option.isSome_iff_exists.mpr hx

/-- What the call of a symbol notes at its callers. -/
theorem addCaller_of_ends {p : Nat} (h : HasBody st p ∨ AliasEnds st p) (caller : Nat)
    (fns : FuncNodes) :
    ∃ fns', addCaller st (some (aliasAddCaller st)) (some p) caller fns = some fns' ∧
      AddsCaller st caller (Resolves st p) fns fns' := by
  by_cases hb : HasBody st p
  · exact addCaller_body hb
  · have hends := (groundedIn_iff_ends p).mpr (h.resolve_left hb)
    obtain ⟨fns', hx, hadds⟩ := calleeAliasAddCaller_of_groundedIn hends fns
    refine ⟨fns', ?_, hadds.congr fun g => (resolves_of_no_body hb).symm⟩
    rw [addCaller, if_neg hb]
    exact hx

/-- A call of a symbol without a body comes back exactly when its aliases end. -/
theorem addCaller_isSome {p : Nat} (hb : ¬ HasBody st p) (caller : Nat) (fns : FuncNodes) :
    (addCaller st (some (aliasAddCaller st)) (some p) caller fns).isSome ↔ AliasEnds st p := by
  rw [addCaller, if_neg hb]
  exact returns_iff_grounded p caller fns

/-! ## One call -/

variable {sn value valueFlag «where» : Nat} {bodyMissing : Bool} {type : Int}
  {missing : Nat → Nat → Prop}

theorem noteCallee_self : (noteCallee sn value valueFlag bodyMissing type «where» fns sn) =
    { fns sn with
      callees := addStmt value valueFlag type «where»
        (addCall (fns sn).callees value valueFlag bodyMissing) } :=
  Function.update_self ..

theorem noteCallee_of_ne {q : Nat} (h : q ≠ sn) :
    noteCallee sn value valueFlag bodyMissing type «where» fns q = fns q :=
  Function.update_of_ne h ..

theorem noteCallee_callers (q : Nat) :
    (noteCallee sn value valueFlag bodyMissing type «where» fns q).callers = (fns q).callers := by
  by_cases h : q = sn
  · subst h
    rw [noteCallee_self]
  · rw [noteCallee_of_ne h]

theorem AddsCaller.callees (h : AddsCaller st caller T fns fns') (q : Nat) :
    (fns' q).callees = (fns q).callees := by
  by_cases hq : T q
  · rw [(h q).1 hq]
  · rw [(h q).2 hq]

theorem AddsCaller.listed_callers (h : AddsCaller st caller T fns fns') (q v f : Nat) :
    Listed (fns' q).callers v f ↔
      Listed (fns q).callers v f ∨ (T q ∧ v = st.id caller ∧ f = 0) := by
  by_cases hq : T q
  · rw [(h q).1 hq]
    show Listed (addCall _ _ _ _) v f ↔ _
    rw [listed_addCall]
    simp only [hq, true_and]
  · rw [(h q).2 hq]
    simp only [hq, false_and, or_false]

theorem listed_noteCallee (q v f : Nat) :
    Listed (noteCallee sn value valueFlag bodyMissing type «where» fns q).callees v f ↔
      Listed (fns q).callees v f ∨ (q = sn ∧ v = value ∧ f = valueFlag) := by
  by_cases hq : q = sn
  · subst hq
    rw [noteCallee_self, listed_addStmt, listed_addCall]
    simp only [true_and]
  · rw [noteCallee_of_ne hq]
    simp only [hq, false_and, or_false]

/-- The mark of the new entry decides whether the callees stay right. -/
theorem listRight_noteCallee (h : ListRight missing (fns sn).callees) :
    ListRight missing (noteCallee sn value valueFlag bodyMissing type «where» fns sn).callees ↔
      (¬ Listed (fns sn).callees value valueFlag →
        (bodyMissing = true ↔ missing value valueFlag)) := by
  rw [noteCallee_self]
  show ListRight missing (addStmt _ _ _ _ _) ↔ _
  rw [listRight_addStmt]
  refine ⟨fun hr hnew => ?_, fun hmark => h.addCall hmark⟩
  by_contra hmark
  exact not_listRight_addCall hnew hmark hr

/-- What `callers` of `g` should say of `f`, with no difference between bodies and aliases. -/
theorem dual_iff (fns : FuncNodes) (f g : st.Traced) :
    (Listed (fns f.1).callees (st.id g.1) 0 ∨ ∃ b < st.next, ¬ HasBody st b ∧
      Listed (fns f.1).callees (st.id b) 0 ∧ Resolves st b g.1) ↔
      ∃ b < st.next, Listed (fns f.1).callees (st.id b) 0 ∧ Resolves st b g.1 := by
  constructor
  · rintro (h | ⟨b, hb, -, hl, hr⟩)
    · exact ⟨g.1, g.2.1, h, .body g.2.2⟩
    · exact ⟨b, hb, hl, hr⟩
  · rintro ⟨b, hb, hl, hr⟩
    by_cases hbody : HasBody st b
    · rw [(resolves_of_body hbody).mp hr]
      exact Or.inl hl
    · exact Or.inr ⟨b, hb, hbody, hl, hr⟩

/-- A function that has a body does not miss it. -/
theorem not_missing (f : st.Traced) : ¬ Missing st (st.id f.1) 0 :=
  fun h => h rfl f.1 f.2.1 rfl f.2.2

/-- **One call.**  The lists stay right when the mark of a new entry is right and the caller is
noted where the callee leads to and nowhere else. -/
theorem GraphRight.call (h : GraphRight st fns) (sn : st.Traced)
    (hadds : AddsCaller st sn.1 T
      (noteCallee sn.1 value valueFlag bodyMissing type «where» fns) fns')
    (hmark : ¬ Listed (fns sn.1).callees value valueFlag →
      (bodyMissing = true ↔ Missing st value valueFlag))
    (hsound : ∀ g, T g → ∃ b < st.next, valueFlag = 0 ∧ st.id b = value ∧ Resolves st b g)
    (hcomplete : ∀ g : st.Traced, ∀ b < st.next, valueFlag = 0 → st.id b = value →
      Resolves st b g.1 → T g.1 ∨ Listed (fns g.1).callers (st.id sn.1) 0) :
    GraphRight st fns' where
  dual f g := by
    have hold := h.dual f g
    rw [dual_iff] at hold
    rw [dual_iff, hadds.listed_callers, noteCallee_callers, hold]
    simp only [hadds.callees, listed_noteCallee]
    constructor
    · rintro (⟨b, hb, hl, hr⟩ | ⟨hT, hid, -⟩)
      · exact ⟨b, hb, Or.inl hl, hr⟩
      · obtain ⟨b, hb, hflag, hval, hr⟩ := hsound g.1 hT
        exact ⟨b, hb, Or.inr ⟨st.id_inj f.1 f.2.1 sn.1 sn.2.1 hid, hval, hflag.symm⟩, hr⟩
    · rintro ⟨b, hb, hl | ⟨hf, hval, hflag⟩, hr⟩
      · exact Or.inl ⟨b, hb, hl, hr⟩
      · obtain hT | hlisted := hcomplete g b hb hflag.symm hval hr
        · exact Or.inr ⟨hT, by rw [hf], trivial⟩
        · rw [← hf] at hlisted
          exact Or.inl (hold.mp hlisted)
  callees f := by
    rw [hadds.callees]
    by_cases hf : f.1 = sn.1
    · rw [hf]
      exact (listRight_noteCallee (h.callees sn)).mpr hmark
    · rw [noteCallee_of_ne hf]
      exact h.callees f
  callers f := by
    have hmid : ListRight (Missing st)
        (noteCallee sn.1 value valueFlag bodyMissing type «where» fns f.1).callers := by
      rw [noteCallee_callers]
      exact h.callers f
    by_cases hf : T f.1
    · rw [(hadds f.1).1 hf]
      exact hmid.addCall fun _ => ⟨fun hno => (by cases hno), fun hm => absurd hm (not_missing sn)⟩
    · rw [(hadds f.1).2 hf]
      exact hmid

/-- The mark of a sinode's entry is right when it says whether the sinode has a body. -/
theorem missing_id {p : Nat} (hp : p < st.next) :
    Missing st (st.id p) 0 ↔ ¬ HasBody st p := by
  constructor
  · intro h
    exact h rfl p hp rfl
  · intro h _ q hq hid
    rw [st.id_inj q hq p hp hid]
    exact h

/-- A call of a sinode, by either of the two functions that note one. -/
theorem GraphRight.callSinode (h : GraphRight st fns) (sn : st.Traced) {p : Nat}
    (hp : p < st.next)
    (hadds : AddsCaller st sn.1 (Resolves st p)
      (noteCallee sn.1 (st.id p) 0 bodyMissing type «where» fns) fns')
    (hmark : ¬ Listed (fns sn.1).callees (st.id p) 0 → (bodyMissing = true ↔ ¬ HasBody st p)) :
    GraphRight st fns' := by
  refine h.call sn hadds (fun hnew => ?_) (fun g hg => ⟨p, hp, rfl, rfl, hg⟩) ?_
  · rw [missing_id hp]
    exact hmark hnew
  · intro g b hb _ hid hr
    rw [st.id_inj b hb p hp hid] at hr
    exact Or.inl hr

/-! ## Every step -/

variable {e : TraceStep st}

theorem getFuncSinode_lt {rf n p : Nat}
    (h : getFuncSinode st.toSinodeStore rf (st.decl n) true = some (some p)) : p < st.next := by
  obtain ⟨ty, hmem⟩ := getFuncSinode_mem h
  exact (st.base.typed ty p hmem).2

theorem graphRight_noCalls : GraphRight st st.noCalls where
  dual f g := by
    constructor
    · rintro ⟨e, he, -⟩
      cases he
    · rintro (⟨e, he, -⟩ | ⟨b, -, -, ⟨e, he, -⟩, -⟩)
      · cases he
      · cases he
  callees f := ⟨List.Pairwise.nil, fun e he => (by cases he)⟩
  callers f := ⟨List.Pairwise.nil, fun e he => (by cases he)⟩

/-- The sinode of a file stands for no function. -/
theorem not_resolves_file {b g : Nat} (hb : b < st.next) (hid : st.id b < 2 ^ ID_VALUE_BITS) :
    ¬ Resolves st b g := by
  obtain ⟨hdata, hattr⟩ := st.file_data b hb hid
  intro hr
  cases hr with
  | body h =>
    rw [HasBody, hdata] at h
    cases h
  | chain _ hq _ =>
    obtain ⟨node, hnode, -⟩ := hq
    rw [hattr] at hnode
    cases hnode

/-- **A step under the condition keeps the call graph right.** -/
theorem graphRight_step (h : GraphRight st fns) (hg : MarksRight st fns e)
    (hx : traceStep st fns e = some fns') : GraphRight st fns' := by
  cases e with
  | funcDecl sn gs n =>
    obtain ⟨callFnSn, hsn, hx⟩ := Option.bind_eq_some_iff.mp hx
    cases callFnSn with
    | none =>
      cases hx
      refine h.call sn AddsCaller.refl (fun _ => ?_) (fun g hg => hg.elim) ?_
      · exact ⟨fun _ h0 => absurd h0 Nat.one_ne_zero, fun _ => rfl⟩
      · exact fun g b _ h0 => absurd h0 Nat.one_ne_zero
    | some p =>
      have hp := getFuncSinode_lt hsn
      have hguard := hg p hsn
      obtain ⟨fns'', hx', hadds⟩ := addCaller_of_ends (hguard.imp_right And.right) sn.1
        (noteCallee sn.1 (st.id p) 0 false SI_TYPE_DF_GIMPLE gs fns)
      obtain rfl : fns'' = fns' := Option.some.inj (hx'.symm.trans hx)
      refine h.callSinode sn hp hadds fun hnew => ?_
      obtain hb | ⟨hlisted, -⟩ := hguard
      · exact ⟨fun hno => (by cases hno), fun hno => absurd hb hno⟩
      · exact absurd hlisted hnew
  | possible sn gs value =>
    simp only [traceStep, possibleCallee] at hx
    split at hx
    · cases hx
    · rename_i p hp
      obtain ⟨fns'', hx', hadds⟩ := addCaller_of_ends (hg p hp) sn.1
        (addCallee st sn.1 p gs SI_TYPE_DF_GIMPLE fns)
      obtain rfl : fns'' = fns' := Option.some.inj (hx'.symm.trans hx)
      exact h.callSinode sn (st.byId_id value p hp).1 hadds fun _ => decide_eq_true_iff
  | internal sn gs internalFn =>
    cases hx
    refine h.call sn AddsCaller.refl (fun _ => ?_) (fun g hg => hg.elim) ?_
    · refine ⟨fun _ _ p hp hid hb => ?_, fun _ => rfl⟩
      exact not_resolves_file hp (hid ▸ internalFn.2) (.body hb)
    · exact fun g b hb _ hid hr => absurd hr (not_resolves_file hb (hid ▸ internalFn.2))
  | asm sn target ip =>
    by_cases hb : HasBody st target
    · obtain ⟨fns'', hx', hadds⟩ :
          ∃ fns'', asmCall st sn.1 target ip fns = some fns'' ∧
            AddsCaller st sn.1 (Resolves st target)
              (addCallee st sn.1 target ip SI_TYPE_DF_ASM fns) fns'' := by
        unfold asmCall
        exact addCaller_body hb
      obtain rfl : fns'' = fns' := Option.some.inj (hx'.symm.trans hx)
      exact h.callSinode sn target.2 hadds fun _ => decide_eq_true_iff
    · simp only [traceStep, asmCall, addCaller, if_neg hb] at hx
      cases hx
      refine h.call sn AddsCaller.refl (fun _ => ?_) (fun g hg => hg.elim) ?_
      · rw [missing_id target.2]
        exact decide_eq_true_iff
      · intro g b hlt _ hid hr
        rw [st.id_inj b hlt target target.2 hid] at hr
        exact Or.inr (hg.resolve_left hb g hr)

/-- A step under the condition resolves its aliases. -/
theorem aliasResolved_step (hg : MarksRight st fns e) : AliasResolved st fns e := by
  intro hfound
  cases e with
  | funcDecl sn gs n =>
    obtain ⟨callFnSn, hsn⟩ := Option.isSome_iff_exists.mp hfound
    simp only [traceStep, callFuncDecl, hsn, Option.bind_some]
    cases callFnSn with
    | none => rfl
    | some p =>
      obtain ⟨fns', hx, -⟩ := addCaller_of_ends ((hg p hsn).imp_right And.right) sn.1 _
      exact Option.isSome_iff_exists.mpr ⟨fns', hx⟩
  | possible sn gs value =>
    obtain ⟨p, hp⟩ := Option.isSome_iff_exists.mp hfound
    simp only [traceStep, possibleCallee, hp]
    obtain ⟨fns', hx, -⟩ := addCaller_of_ends (hg p hp) sn.1 _
    exact Option.isSome_iff_exists.mpr ⟨fns', hx⟩
  | internal sn gs internalFn => rfl
  | asm sn target ip =>
    simp only [traceStep, asmCall, addCaller]
    split
    · rfl
    · rfl

/-- **A step outside the condition** that resolves its aliases leaves a wrong list. -/
theorem not_graphRight_step (h : GraphRight st fns) (hng : ¬ MarksRight st fns e)
    (hr : AliasResolved st fns e) :
      ∃ fns', traceStep st fns e = some fns' ∧ ¬ GraphRight st fns' := by
  cases e with
  | funcDecl sn gs n =>
    simp only [MarksRight, not_forall] at hng
    obtain ⟨p, hsn, hng⟩ := hng
    obtain ⟨hb, hno⟩ := not_or.mp hng
    have hback := hr (by rw [CalleeFound, hsn]; rfl)
    simp only [traceStep, callFuncDecl, hsn, Option.bind_some] at hback ⊢
    have hends := (addCaller_isSome hb _ _).mp hback
    have hnew : ¬ Listed (fns sn.1).callees (st.id p) 0 := fun hl => hno ⟨hl, hends⟩
    obtain ⟨fns', hx, hadds⟩ := addCaller_of_ends (Or.inr hends) sn.1
      (noteCallee sn.1 (st.id p) 0 false SI_TYPE_DF_GIMPLE gs fns)
    refine ⟨fns', hx, fun hbad => ?_⟩
    have hlist := hbad.callees sn
    rw [hadds.callees, listRight_noteCallee (h.callees sn), missing_id (getFuncSinode_lt hsn)]
      at hlist
    cases (hlist hnew).mpr hb
  | possible sn gs value =>
    simp only [MarksRight, not_forall] at hng
    obtain ⟨p, hp, hng⟩ := hng
    obtain ⟨hb, hends⟩ := not_or.mp hng
    have hback := hr (by rw [CalleeFound, hp]; rfl)
    simp only [traceStep, possibleCallee, hp] at hback
    exact absurd ((addCaller_isSome hb _ _).mp hback) hends
  | internal sn gs internalFn => exact absurd trivial hng
  | asm sn target ip =>
    obtain ⟨hb, hng⟩ := not_or.mp hng
    simp only [not_forall] at hng
    obtain ⟨g, hr, hno⟩ := hng
    refine ⟨addCallee st sn.1 target ip SI_TYPE_DF_ASM fns, ?_, fun hbad => hno ?_⟩
    · simp only [traceStep, asmCall, addCaller, if_neg hb]
    · have hdual := hbad.dual sn g
      rw [dual_iff, addCallee, noteCallee_callers] at hdual
      refine hdual.mpr ⟨target, target.2, ?_, hr⟩
      exact (listed_noteCallee ..).mpr (Or.inr ⟨rfl, rfl, rfl⟩)

/-- **The call graph is right all along a run exactly when the run meets the condition.** -/
theorem callGraph_exact (st : FuncStore) (es : List (TraceStep st)) :
    (Visits (traceStep st) (GraphRight st) st.noCalls es ∧
      Along (traceStep st) (AliasResolved st) st.noCalls es) ↔
      Along (traceStep st) (MarksRight st) st.noCalls es :=
  visits_along_iff (fun _ _ _ h hg hx => graphRight_step h hg hx) (fun _ h => h)
    (fun _ _ _ hg => aliasResolved_step hg) (fun _ _ h hng hr => not_graphRight_step h hng hr)
    graphRight_noCalls

/-! ## A callee without a body -/

/-- The sinode of a global function, with or without a body. -/
def funcSinode (name : Name) (data : Option DataNode) : Sinode where
  data := data
  datalen := 0
  buf := ⟨0, 0, .gimple⟩
  obj := none
  locFile := none
  locLine := 0
  locCol := 0
  fromWeak := false
  type := .funcGlobal
  name := name
  weakFlag := 0

/-- The identity of a global function never reads as a bare value: its type is in the high bits. -/
theorem funcGlobal_not_lt (p : Nat) :
    ¬ TYPE_FUNC_GLOBAL * 2 ^ ID_VALUE_BITS + p < 2 ^ ID_VALUE_BITS := by
  simp only [TYPE_FUNC_GLOBAL, ID_VALUE_BITS]
  omega

/-- The function `a`, and `b` that is declared with an alias attribute and has no body. -/
def declStore : FuncStore where
  sn := fun p => if p = 0 then funcSinode (bytesOf "a") (some ⟨0, 0⟩) else
    funcSinode (bytesOf "b") none
  next := 2
  trees := fun ty => if ty = .funcGlobal then .node .nil 0 (.node .nil 1 .nil) else .nil
  builtin := none
  inserted := []
  base :=
    { typed := by
        intro ty p hp
        by_cases hty : ty = .funcGlobal
        · subst hty
          have hmem : p = 0 ∨ p = 1 := by simpa using hp
          obtain rfl | rfl := hmem
          · exact ⟨rfl, Nat.two_pos⟩
          · exact ⟨rfl, Nat.one_lt_two⟩
        · simp [hty] at hp
      flag := fun p => Or.inl (by dsimp only; split <;> rfl)
      named := by
        intro ty
        by_cases hty : ty = .funcGlobal
        · subst hty
          decide
        · simp [hty] }
  id := fun p => TYPE_FUNC_GLOBAL * 2 ^ ID_VALUE_BITS + p
  id_inj := fun p _ q _ h => Nat.add_left_cancel h
  byId := fun _ => none
  byId_id := fun _ _ h => (by cases h)
  attributes := fun p =>
    if p = 1 then [⟨bytesOf "alias", [.string 0 (bytesOf "a")]⟩] else []
  file_data := fun p _ h => absurd h (funcGlobal_not_lt p)
  decl := fun _ => ⟨some (bytesOf "b"), false, true, false, false, none, ⟨none, 0, 0⟩⟩
  resfile := fun _ => 0

/-- `call_func_decl` leaves the mark of `b` unset. -/
theorem callFuncDecl_unmarked :
    ¬ Visits (traceStep declStore) (GraphRight declStore) declStore.noCalls
      [.funcDecl ⟨0, Nat.two_pos, rfl⟩ 0 0] := by
  intro h
  have hsn : getFuncSinode declStore.toSinodeStore (declStore.resfile 0) (declStore.decl 0) true =
      some (some 1) := by decide
  have hguard : ¬ MarksRight declStore declStore.noCalls (.funcDecl ⟨0, Nat.two_pos, rfl⟩ 0 0) := by
    intro hg
    obtain hb | ⟨⟨e, he, -⟩, -⟩ := hg 1 hsn
    · cases hb
    · cases he
  have hback : AliasResolved declStore declStore.noCalls
      (.funcDecl ⟨0, Nat.two_pos, rfl⟩ 0 0) := fun _ => by decide
  obtain ⟨fns', hx, hno⟩ := not_graphRight_step graphRight_noCalls hguard hback
  exact hno (h.2 fns' hx).head

end Srcinv.Analysis
