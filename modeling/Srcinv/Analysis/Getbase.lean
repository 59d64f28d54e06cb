import Srcinv.Analysis.Sinode

/-!
# The base phase (`do_get_base` of `analysis/gcc/c.cc`, `getbase` of `analysis/gcc/asm.cc`)

For each type, function and variable of a sibuf the phase looks for the sinode of its key, and
inserts a new one, leaves the one it found, or replaces the data of the one it found.  The two
languages run the same protocol of a search and an insertion with different rules of conflict;
`Plan` is what has been decided when the search is over.

Each object, and each symbol of an object file, is handled under `getbase_lock`, so it is one
step.  A failed `BUG_ON` is `none`.
-/

namespace Srcinv.Analysis

open Srcinv.Lib

/-- The sizes of the nodes behind `data`. -/
structure NodeSizes where
  typeNode : Nat
  varNode : Nat
  funcNode : Nat

/-- `sinode_new`: everything else is zero. -/
def sinodeNew (ty : SinodeType) (name : Name) : Sinode where
  data := none
  datalen := 0
  buf := ⟨0, 0, .gimple⟩
  obj := none
  locFile := none
  locLine := 0
  locCol := 0
  fromWeak := false
  type := ty
  name := name
  weakFlag := 0

/-- What is decided about a symbol once `sinode_search` has returned. -/
inductive Plan where
  /-- There is no symbol to register. -/
  | nothing
  /-- A type that gets a type node of its sibuf. -/
  | typenode (tc addr : Nat)
  /-- Leave the sinode that was found. -/
  | keep (hit : Nat)
  /-- Insert the sinode; `hit` is what the search returned. -/
  | insert (s : Sinode) (behavior : Behavior) (hit : Option Nat)

/-- The 0 or 1 of an unsigned bit or of a comparison. -/
def unsignedBit (b : Bool) : Int := if b then 1 else 0

/-! ## GIMPLE -/

/-- What the head of the loop says about an object. -/
inductive ObjClass where
  | skip
  | dropped
  /-- A symbol; without a type it is `TYPE_NONE` so far. -/
  | symbol (ty : Option SinodeType) (name : Name) (xloc : Option XLoc)

/-- The head of the loop of `do_get_base`. -/
def classifyObj (o : TreeObj) : Option ObjClass :=
  match o.node with
  | .type t =>
    match checkFileType o.realAddr t with
    | .undefined | .canonicaled => some .dropped
    | .defined =>
      (getTypeName t).map fun name =>
        let xloc := getLocation t
        .symbol (if name ≠ [] ∧ (xloc.bind XLoc.file).isSome then some .type else none) name xloc
  | .function f =>
    match checkFileFunc f with
    | none => none
    | some .external => some .dropped
    | some .static => (getFunctionName f).map fun name =>
        .symbol (some .funcStatic) name (some f.loc)
    | some .global => (getFunctionName f).map fun name =>
        .symbol (some .funcGlobal) name (some f.loc)
  | .globalVar v =>
    match checkFileVar v with
    | none => none
    | some .external | some .local => some .dropped
    | some .static => (getVarName o.realAddr v).map fun name =>
        .symbol (some .varStatic) name (some v.loc)
    | some .global => (getVarName o.realAddr v).map fun name =>
        .symbol (some .varGlobal) name (some v.loc)
  | .other => some .skip

/-- The sinode of the file a symbol is in, which is made when it is new. -/
def locFileSinode (R : Recolor) (st : SinodeStore) (xloc : Option XLoc) :
    Option (SinodeStore × Option Nat) :=
  match xloc.bind XLoc.file with
  | none => some (st, none)
  | some file =>
    match sinodeSearchFile st file with
    | some p => some (st, some p)
    | none => (sinodeInsert (st.alloc (sinodeNew .file file)) R st.next .none).map fun st' =>
        (st', some st.next)

/-- Whether a definition is weak. -/
def TreeObj.weak (o : TreeObj) : Bool :=
  match o.node with
  | .function f => f.weak
  | .globalVar v => v.weak
  | _ => false

inductive Conflict where
  | drop
  | replace
  deriving DecidableEq, Repr

/-- The rule for a symbol of another format, the same for functions and variables. -/
def foreignConflict (newWeak : Bool) (old : Sinode) : Conflict :=
  if unsignedBit newWeak < old.weakFlag then .replace else .drop

/-- `func_conflict`. -/
def funcConflict (f : FuncTree) (old : Sinode) : Option Conflict :=
  if old.buf.dataFmt ≠ .gimple then some (foreignConflict f.weak old)
  else
    match old.obj with
    | some ⟨_, _, .function g⟩ =>
      if unsignedBit g.weak > unsignedBit f.weak then some .replace
      else if g.structFunction.isNone ∧ f.structFunction.isSome then some .replace
      else some .drop
    | _ => none

/-- `var_conflict`. -/
def varConflict (v : VarTree) (old : Sinode) : Option Conflict :=
  if old.buf.dataFmt ≠ .gimple then some (foreignConflict v.weak old)
  else
    match old.obj with
    | some ⟨_, _, .globalVar w⟩ =>
      if unsignedBit w.weak ≤ unsignedBit v.weak then some .drop else some .replace
    | _ => none

/-- `check_conflict`; nodes of different classes are a `BUG`. -/
def checkConflict (o : TreeObj) (old : Sinode) : Option Conflict :=
  match o.node with
  | .function f => funcConflict f old
  | .globalVar v => varConflict v old
  | _ => none

/-- The sinode that `do_get_base` makes of an object. -/
def gimpleSinode (Z : NodeSizes) (buf : SymBuf) (o : TreeObj) (ty : SinodeType) (name : Name)
    (xloc : Option XLoc) (locFile : Option Nat) : Sinode :=
  let s := { sinodeNew ty name with
    buf := buf
    obj := some o
    locFile := locFile
    locLine := if locFile.isSome then (xloc.map XLoc.line).getD 0 else 0
    locCol := if locFile.isSome then (xloc.map XLoc.column).getD 0 else 0
    fromWeak := o.weak }
  match o.node with
  | .type _ => { s with data := some ⟨o.realAddr, 0⟩, datalen := Z.typeNode }
  | .globalVar v =>
    { s with data := some ⟨o.realAddr, 0⟩, datalen := Z.varNode, weakFlag := signedBit v.weak }
  | .function f =>
    if f.structFunction = some true then
      { s with data := some ⟨o.realAddr, 0⟩, datalen := Z.funcNode, weakFlag := signedBit f.weak }
    else { s with weakFlag := signedBit f.weak }
  | .other => s

/-- From the search on, for a symbol that has a type. -/
def gimplePlan (Z : NodeSizes) (st : SinodeStore) (buf : SymBuf) (o : TreeObj)
    (ty : SinodeType) (name : Name) (xloc : Option XLoc) (locFile : Option Nat) :
    Option Plan :=
  let global := ty = .funcGlobal ∨ ty = .varGlobal
  if name = [] ∨ (¬ global ∧ locFile.isNone) then none
  else
    let hit :=
      if global then sinodeSearchNameResfile st ty buf.rf st.builtin name
      else sinodeSearchNameLoc st ty locFile ((xloc.map XLoc.line).getD 0)
        ((xloc.map XLoc.column).getD 0) name
    let s := gimpleSinode Z buf o ty name xloc locFile
    match hit with
    | none => some (.insert s .none none)
    | some p =>
      if (ty = .funcStatic ∧ (st.sn p).data.isSome) ∨ ty = .varStatic ∨ ty = .type then
        some (.keep p)
      else
        (checkConflict o (st.sn p)).map fun c =>
          match c with
          | .drop => .keep p
          | .replace => .insert s .replace (some p)

/-! ## Assembler -/

inductive SymType where
  | func
  | object
  | notype
  | other
  deriving DecidableEq, Repr

inductive SymBind where
  | loc
  | global
  | weak
  | other
  deriving DecidableEq, Repr

inductive SymSection where
  | text
  | data
  | other
  deriving DecidableEq, Repr

/-- A symbol of an object file. -/
structure ElfSym where
  name : Option Name
  type : SymType
  bind : SymBind
  loadAddr : Nat
  size : Nat
  section_ : SymSection
  deriving DecidableEq, Repr

/-- The sinode type by the binding of a function or of a variable. -/
def bindType (bind : SymBind) (static global : SinodeType) : Option SinodeType :=
  match bind with
  | .loc => some static
  | .global | .weak => some global
  | .other => none

/-- The type that `getbase` gives a symbol; `none` for one that it skips. -/
def elfSymType (sym : ElfSym) : Option SinodeType :=
  match sym.type with
  | .func => bindType sym.bind .funcStatic .funcGlobal
  | .object => bindType sym.bind .varStatic .varGlobal
  | .notype =>
    if sym.name.isSome ∧ sym.loadAddr ≠ 0 then
      match sym.section_ with
      | .text => bindType sym.bind .funcStatic .funcGlobal
      | .data => bindType sym.bind .varStatic .varGlobal
      | .other => none
    else none
  | .other => none

/-- The sinode that `getbase` makes of a symbol. -/
def asmSinode (Z : NodeSizes) (buf : SymBuf) (sym : ElfSym) (ty : SinodeType) (name : Name)
    (locFile : Nat) : Sinode :=
  let weak := sym.bind = .weak
  { sinodeNew ty name with
    buf := buf
    locFile := some locFile
    data := some ⟨sym.loadAddr, sym.size⟩
    datalen := if ty = .varGlobal ∨ ty = .varStatic then Z.varNode else Z.funcNode
    fromWeak := weak
    weakFlag := signedBit weak }

/-- From the search on. -/
def asmPlan (Z : NodeSizes) (st : SinodeStore) (buf : SymBuf) (sym : ElfSym) (ty : SinodeType)
    (name : Name) (locFile : Nat) : Plan :=
  let hit :=
    if ty = .funcGlobal ∨ ty = .varGlobal then
      sinodeSearchNameResfile st ty buf.rf st.builtin name
    else sinodeSearchNameLoc st ty (some locFile) 0 0 name
  let s := asmSinode Z buf sym ty name locFile
  match hit with
  | none => .insert s .none none
  | some p =>
    if unsignedBit (sym.bind = .weak) < (st.sn p).weakFlag then .insert s .replace (some p)
    else .keep p

/-! ## Type nodes -/

/-- `struct sibuf_typenode`: the first type of its code in a sibuf has the others below it. -/
structure SibufTypenode where
  typeCode : Nat
  node : Nat
  sameTc : SearchTree Nat

/-- The type nodes of all sibufs, by number, and the root of each sibuf. -/
structure TypenodeStore where
  tn : Nat → SibufTypenode
  next : Nat
  fileTypes : Nat → SearchTree Nat

/-- `sibuf_typenode_search`. -/
def sibufTypenodeSearch (ts : TypenodeStore) (buf tc addr : Nat) : Option Nat :=
  match (ts.fileTypes buf).find fun p => compare (ts.tn p).typeCode tc with
  | none => none
  | some p =>
    if (ts.tn p).node = addr then some p
    else (ts.tn p).sameTc.find fun q => compare (ts.tn q).node addr

/-- `sibuf_typenode_insert` of a new type node. -/
def sibufTypenodeInsert (R : Recolor) (ts : TypenodeStore) (buf tc addr : Nat) :
    Option TypenodeStore :=
  let new := ts.next
  let ts := { ts with tn := Function.update ts.tn new ⟨tc, addr, .nil⟩, next := new + 1 }
  match (ts.fileTypes buf).find fun p => compare (ts.tn p).typeCode tc with
  | some p =>
    if (ts.tn p).node = addr then none
    else ((ts.tn p).sameTc.link (fun q => compare (ts.tn q).node addr) new).map fun t =>
      { ts with tn := Function.update ts.tn p { ts.tn p with sameTc := R.run new t } }
  | none => ((ts.fileTypes buf).link (fun p => compare (ts.tn p).typeCode tc) new).map fun t =>
      { ts with fileTypes := Function.update ts.fileTypes buf (R.run new t) }

/-! ## The steps -/

/-- The part of the src that the base phase works on.  `asmFile` is the `loc_file` of the running
    `getbase` of each sibuf. -/
structure BaseSrc where
  sinodes : SinodeStore
  typenodes : TypenodeStore
  asmFile : Nat → Option Nat

/-- What a symbol is registered as. -/
inductive Registered where
  | sinode (p : Nat)
  | typenode (p : Nat)
  deriving DecidableEq, Repr

/-- One turn of a worker: an object of a GIMPLE sibuf, the file of an assembler sibuf or one of
    its symbols; or a resfile becomes the built-in one. -/
inductive BaseEvent where
  | gimple (buf rf : Nat) (o : TreeObj)
  | asmFile (buf : Nat) (srcfile : Name)
  | asmSym (buf rf : Nat) (sym : ElfSym)
  | addBuiltin (rf : Nat)

/-- The name and type of a symbol once its file is known: a type without a name may get one. -/
def finishName (o : TreeObj) (ty : Option SinodeType) (name : Name) (xloc : Option XLoc)
    (locFile : Option Nat) : Option (Option SinodeType × Name) :=
  match ty, locFile, xloc, o.node with
  | none, some p, some x, .type t =>
    if name = [] then
      (genTypeName t (ptr (some p)) x).map fun name =>
        (if name ≠ [] then some .type else none, name)
    else some (none, name)
  | _, _, _, _ => some (ty, name)

/-- The loop of `do_get_base` up to the decision; the file of the object may be new. -/
def gimpleDecide (Z : NodeSizes) (R : Recolor) (st : SinodeStore) (buf : SymBuf) (o : TreeObj) :
    Option (SinodeStore × Plan) :=
  match classifyObj o with
  | none => none
  | some .skip | some .dropped => some (st, .nothing)
  | some (.symbol ty name xloc) =>
    match locFileSinode R st xloc with
    | none => none
    | some (st, locFile) =>
      match finishName o ty name xloc locFile, o.node with
      | none, _ => none
      | some (none, _), .type t => some (st, .typenode t.code o.realAddr)
      | some (none, _), _ => none
      | some (some ty, name), _ =>
        (gimplePlan Z st buf o ty name xloc locFile).map fun plan => (st, plan)

/-- The loop of the assembler `getbase` up to the decision. -/
def asmDecide (Z : NodeSizes) (st : SinodeStore) (buf : SymBuf) (sym : ElfSym)
    (locFile : Nat) : Option Plan :=
  match elfSymType sym, sym.name with
  | none, _ => some .nothing
  | some _, none => none
  | some ty, some name => some (asmPlan Z st buf sym ty name locFile)

/-- Carry a plan out; the second component is what the symbol is registered as. -/
def runPlan (R : Recolor) (st : BaseSrc) (buf : Nat) :
    Plan → Option (BaseSrc × Option Registered)
  | .nothing => some (st, none)
  | .typenode tc addr =>
    match sibufTypenodeSearch st.typenodes buf tc addr with
    | some p => some (st, some (.typenode p))
    | none => (sibufTypenodeInsert R st.typenodes buf tc addr).map fun ts =>
        ({ st with typenodes := ts }, some (.typenode st.typenodes.next))
  | .keep hit => some (st, some (.sinode hit))
  | .insert s behavior hit =>
    (sinodeInsert (st.sinodes.alloc s) R st.sinodes.next behavior).map fun sn =>
      ({ st with sinodes := sn }, some (.sinode (hit.getD st.sinodes.next)))

/-- The store and the plan when the search of an event is over. -/
def planOf (Z : NodeSizes) (R : Recolor) (st : BaseSrc) : BaseEvent → Option (SinodeStore × Plan)
  | .gimple buf rf o => gimpleDecide Z R st.sinodes ⟨buf, rf, .gimple⟩ o
  | .asmSym buf rf sym =>
    match st.asmFile buf with
    | none => none
    | some p => (asmDecide Z st.sinodes ⟨buf, rf, .asm⟩ sym p).map fun plan => (st.sinodes, plan)
  | .asmFile _ _ | .addBuiltin _ => none

def getbaseStep (Z : NodeSizes) (R : Recolor) (st : BaseSrc) (e : BaseEvent) :
    Option (BaseSrc × Option Registered) :=
  match e with
  | .gimple buf _ _ | .asmSym buf _ _ =>
    match planOf Z R st e with
    | none => none
    | some (sn, plan) => runPlan R { st with sinodes := sn } buf plan
  | .asmFile buf srcfile =>
    match sinodeSearchFile st.sinodes srcfile with
    | some _ => some ({ st with asmFile := Function.update st.asmFile buf none }, none)
    | none =>
      let p := st.sinodes.next
      (sinodeInsert (st.sinodes.alloc (sinodeNew .file srcfile)) R p .none).map fun sn =>
        ({ st with sinodes := sn, asmFile := Function.update st.asmFile buf (some p) }, none)
  | .addBuiltin rf => some ({ st with sinodes := { st.sinodes with builtin := some rf } }, none)

/-- The src after a step. -/
def getbaseNext (Z : NodeSizes) (R : Recolor) (st : BaseSrc) (e : BaseEvent) : Option BaseSrc :=
  (getbaseStep Z R st e).map Prod.fst

/-- The src before any base phase. -/
def BaseSrc.empty (builtin : Option Nat) : BaseSrc where
  sinodes :=
    { sn := fun _ => sinodeNew .file [], next := 0, trees := fun _ => .nil, builtin := builtin
      inserted := [] }
  typenodes := { tn := fun _ => ⟨0, 0, .nil⟩, next := 0, fileTypes := fun _ => .nil }
  asmFile _ := none

/-! ## What a step decides -/

/-- A definition of a function or variable. -/
structure SymDef where
  ty : SinodeType
  name : Name
  rf : Nat
  weak : Bool
  deriving DecidableEq, Repr

/-- The definition that an event brings. -/
def eventDef : BaseEvent → Option SymDef
  | .gimple _ rf o =>
    match classifyObj o with
    | some (.symbol (some ty) name _) => if ty = .type then none else some ⟨ty, name, rf, o.weak⟩
    | _ => none
  | .asmSym _ rf sym =>
    match elfSymType sym, sym.name with
    | some ty, some name => some ⟨ty, name, rf, sym.bind = .weak⟩
    | _, _ => none
  | .asmFile _ _ | .addBuiltin _ => none

/-- The sinode is made from the event. -/
inductive MadeFrom (Z : NodeSizes) : BaseEvent → Sinode → Prop
  | object {buf rf : Nat} {o : TreeObj} {ty₀ : Option SinodeType} {ty : SinodeType}
      {name₀ name : Name} {xloc : Option XLoc} {locFile : Option Nat}
      (hclass : classifyObj o = some (.symbol ty₀ name₀ xloc))
      (hname : finishName o ty₀ name₀ xloc locFile = some (some ty, name)) :
      MadeFrom Z (.gimple buf rf o)
        (gimpleSinode Z ⟨buf, rf, .gimple⟩ o ty name xloc locFile)
  | symbol {buf rf : Nat} {sym : ElfSym} {ty : SinodeType} {name : Name} {locFile : Nat}
      (hty : elfSymType sym = some ty) (hname : sym.name = some name) :
      MadeFrom Z (.asmSym buf rf sym) (asmSinode Z ⟨buf, rf, .asm⟩ sym ty name locFile)

/-- What may be decided about a sinode after a search for it. -/
inductive Decided (st : SinodeStore) (s : Sinode) : Plan → Prop
  | fresh (h : sinodeSearch st s = none) : Decided st s (.insert s .none none)
  | kept {q : Nat} (h : sinodeSearch st s = some q) : Decided st s (.keep q)
  | replaced {q : Nat} (h : sinodeSearch st s = some q)
      (hty : s.type = .funcGlobal ∨ s.type = .varGlobal ∨ s.type = .funcStatic) :
      Decided st s (.insert s .replace (some q))

variable {st st' : SinodeStore} {Z : NodeSizes} {R : Recolor} {src src' : BaseSrc} {e : BaseEvent}

theorem signedBit_cases (b : Bool) : signedBit b = 0 ∨ signedBit b = -1 := by
  cases b
  · exact Or.inl rfl
  · exact Or.inr rfl

/-- A new symbol is never below a stored flag, which has only the values 0 and -1. -/
theorem not_unsignedBit_lt {flag : Int} (h : flag = 0 ∨ flag = -1) (b : Bool) :
    ¬ unsignedBit b < flag := by
  unfold unsignedBit
  split <;> omega

/-- The sinode that an object becomes. -/
theorem gimpleSinode_facts (Z : NodeSizes) (buf : SymBuf) (o : TreeObj) (ty : SinodeType)
    (name : Name) (xloc : Option XLoc) (locFile : Option Nat) :
    let s := gimpleSinode Z buf o ty name xloc locFile
    s.type = ty ∧ s.name = name ∧ s.buf = buf ∧ s.locFile = locFile ∧ s.fromWeak = o.weak ∧
      s.weakFlag = signedBit o.weak ∧
      (locFile.isSome → s.locLine = (xloc.map XLoc.line).getD 0 ∧
        s.locCol = (xloc.map XLoc.column).getD 0) := by
  unfold gimpleSinode
  simp only
  split
  · rename_i hnode
    have hw : o.weak = false := by simp [TreeObj.weak, hnode]
    exact ⟨rfl, rfl, rfl, rfl, rfl, by rw [hw]; rfl, fun h => ⟨if_pos h, if_pos h⟩⟩
  · rename_i v hnode
    have hw : o.weak = v.weak := by simp [TreeObj.weak, hnode]
    exact ⟨rfl, rfl, rfl, rfl, rfl, by rw [hw], fun h => ⟨if_pos h, if_pos h⟩⟩
  · rename_i f hnode
    have hw : o.weak = f.weak := by simp [TreeObj.weak, hnode]
    split
    · exact ⟨rfl, rfl, rfl, rfl, rfl, by rw [hw], fun h => ⟨if_pos h, if_pos h⟩⟩
    · exact ⟨rfl, rfl, rfl, rfl, rfl, by rw [hw], fun h => ⟨if_pos h, if_pos h⟩⟩
  · rename_i hnode
    have hw : o.weak = false := by simp [TreeObj.weak, hnode]
    exact ⟨rfl, rfl, rfl, rfl, rfl, by rw [hw]; rfl, fun h => ⟨if_pos h, if_pos h⟩⟩

/-- The types that objects have. -/
theorem classifyObj_ty {o : TreeObj} {ty : SinodeType} {name : Name} {xloc : Option XLoc}
    (h : classifyObj o = some (.symbol (some ty) name xloc)) : ty ≠ .file := by
  unfold classifyObj at h
  split at h
  · split at h
    · cases h
    · cases h
    · obtain ⟨_, -, hsym⟩ := Option.map_eq_some_iff.mp h
      simp only [ObjClass.symbol.injEq] at hsym
      obtain ⟨hty, -⟩ := hsym
      split at hty
      · cases hty
        simp
      · cases hty
  · split at h
    · cases h
    · cases h
    · obtain ⟨_, -, hsym⟩ := Option.map_eq_some_iff.mp h
      cases hsym
      simp
    · obtain ⟨_, -, hsym⟩ := Option.map_eq_some_iff.mp h
      cases hsym
      simp
  · split at h
    · cases h
    · cases h
    · cases h
    · obtain ⟨_, -, hsym⟩ := Option.map_eq_some_iff.mp h
      cases hsym
      simp
    · obtain ⟨_, -, hsym⟩ := Option.map_eq_some_iff.mp h
      cases hsym
      simp
  · cases h

/-- A name found late belongs to a type; otherwise type and name stay. -/
theorem finishName_cases {o : TreeObj} {ty : Option SinodeType} {name name' : Name}
    {xloc : Option XLoc} {locFile : Option Nat} {ty' : Option SinodeType}
    (h : finishName o ty name xloc locFile = some (ty', name')) :
    (ty' = ty ∧ name' = name) ∨ (ty = none ∧ (ty' = none ∨ ty' = some .type)) := by
  unfold finishName at h
  split at h
  · split at h
    · obtain ⟨_, -, hpair⟩ := Option.map_eq_some_iff.mp h
      simp only [Prod.mk.injEq] at hpair
      obtain ⟨rfl, -⟩ := hpair
      split
      · exact Or.inr ⟨rfl, Or.inr rfl⟩
      · exact Or.inr ⟨rfl, Or.inl rfl⟩
    · cases h
      exact Or.inl ⟨rfl, rfl⟩
  · cases h
    exact Or.inl ⟨rfl, rfl⟩

/-- The loop of `do_get_base` up to the decision. -/
theorem gimpleDecide_cases {buf : SymBuf} {o : TreeObj} {plan : Plan}
    (h : gimpleDecide Z R st buf o = some (st', plan)) :
    (st' = st ∧ plan = .nothing ∧ (classifyObj o = some .skip ∨ classifyObj o = some .dropped)) ∨
    ∃ ty₀ name₀ xloc locFile, classifyObj o = some (.symbol ty₀ name₀ xloc) ∧
      locFileSinode R st xloc = some (st', locFile) ∧
      ((∃ t name, o.node = .type t ∧ finishName o ty₀ name₀ xloc locFile = some (none, name) ∧
          plan = .typenode t.code o.realAddr) ∨
        ∃ ty name, ty ≠ .file ∧ finishName o ty₀ name₀ xloc locFile = some (some ty, name) ∧
          gimplePlan Z st' buf o ty name xloc locFile = some plan) := by
  unfold gimpleDecide at h
  split at h
  · cases h
  · rename_i hclass
    cases h
    exact Or.inl ⟨rfl, rfl, Or.inl hclass⟩
  · rename_i hclass
    cases h
    exact Or.inl ⟨rfl, rfl, Or.inr hclass⟩
  rename_i ty name xloc hclass
  split at h
  · cases h
  rename_i st₁ locFile hloc
  split at h
  · cases h
  · rename_i name' t hname hnode
    cases h
    exact Or.inr ⟨ty, name, xloc, locFile, hclass, hloc, Or.inl ⟨t, name', hnode, hname, rfl⟩⟩
  · cases h
  rename_i ty' name' hname
  obtain ⟨_, hplan, hpair⟩ := Option.map_eq_some_iff.mp h
  cases hpair
  refine Or.inr ⟨ty, name, xloc, locFile, hclass, hloc, Or.inr ⟨ty', name', ?_, hname, hplan⟩⟩
  obtain ⟨rfl, -⟩ | ⟨-, hnone | hty⟩ := finishName_cases hname
  · exact classifyObj_ty hclass
  · cases hnone
  · cases hty
    simp

/-- **An object is decided on after a search for the sinode it becomes.** -/
theorem gimplePlan_outcome {buf : SymBuf} {o : TreeObj} {ty : SinodeType}
    {name : Name} {xloc : Option XLoc} {locFile : Option Nat} {plan : Plan} (hfile : ty ≠ .file)
    (h : gimplePlan Z st buf o ty name xloc locFile = some plan) :
    Decided st (gimpleSinode Z buf o ty name xloc locFile) plan := by
  have hfacts := gimpleSinode_facts Z buf o ty name xloc locFile
  unfold gimplePlan at h
  simp only at h hfacts
  obtain ⟨hty, hname, hbuf, hlf, -, -, hloc⟩ := hfacts
  split at h
  · cases h
  rename_i hok
  -- the arguments of the search are the fields of the new sinode
  have hsearch : (if ty = .funcGlobal ∨ ty = .varGlobal then
        sinodeSearchNameResfile st ty buf.rf st.builtin name
      else sinodeSearchNameLoc st ty locFile ((xloc.map XLoc.line).getD 0)
        ((xloc.map XLoc.column).getD 0) name) =
      sinodeSearch st (gimpleSinode Z buf o ty name xloc locFile) := by
    cases ty with
    | file => exact absurd rfl hfile
    | funcGlobal | varGlobal => simp [sinodeSearch, hty, hname, hbuf]
    | type | funcStatic | varStatic =>
      have hplace : name ≠ [] ∧ locFile ≠ none := by simpa using hok
      obtain ⟨hline, hcol⟩ := hloc (Option.isSome_iff_ne_none.mpr hplace.2)
      simp [sinodeSearch, hty, hname, hlf, hline, hcol]
  rw [hsearch] at h
  split at h
  · rename_i hnone
    cases h
    exact .fresh hnone
  · rename_i q hsome
    split at h
    · cases h
      exact .kept hsome
    rename_i hkeep
    obtain ⟨c, -, hc⟩ := Option.map_eq_some_iff.mp h
    cases c with
    | drop =>
      cases hc
      exact .kept hsome
    | replace =>
      cases hc
      refine .replaced hsome ?_
      rw [hty]
      cases ty with
      | file => exact absurd rfl hfile
      | type | varStatic => simp at hkeep
      | funcGlobal | varGlobal | funcStatic => simp

/-- An assembler symbol never replaces. -/
theorem asmPlan_outcome {buf : SymBuf} {sym : ElfSym} {ty : SinodeType} {name : Name}
    {locFile : Nat} (hflag : ∀ p, (st.sn p).weakFlag = 0 ∨ (st.sn p).weakFlag = -1)
    (hty : elfSymType sym = some ty) :
    Decided st (asmSinode Z buf sym ty name locFile)
      (asmPlan Z st buf sym ty name locFile) := by
  have hbind : ∀ {static global : SinodeType}, bindType sym.bind static global = some ty →
      ty = static ∨ ty = global := by
    intro static global h
    unfold bindType at h
    split at h <;> cases h
    · exact Or.inl rfl
    · exact Or.inr rfl
    · exact Or.inr rfl
  have htys : (ty = .funcStatic ∨ ty = .funcGlobal) ∨ (ty = .varStatic ∨ ty = .varGlobal) := by
    unfold elfSymType at hty
    split at hty
    · exact Or.inl (hbind hty)
    · exact Or.inr (hbind hty)
    · split at hty
      · split at hty
        · exact Or.inl (hbind hty)
        · exact Or.inr (hbind hty)
        · cases hty
      · cases hty
    · cases hty
  have hsearch : (if ty = .funcGlobal ∨ ty = .varGlobal then
        sinodeSearchNameResfile st ty buf.rf st.builtin name
      else sinodeSearchNameLoc st ty (some locFile) 0 0 name) =
      sinodeSearch st (asmSinode Z buf sym ty name locFile) := by
    obtain (rfl | rfl) | (rfl | rfl) := htys <;> rfl
  unfold asmPlan
  simp only [hsearch]
  split
  · rename_i hnone
    exact .fresh hnone
  · rename_i q hsome
    rw [if_neg (not_unsignedBit_lt (hflag q) _)]
    exact .kept hsome

/-- The file of a symbol is the only sinode that is made before the decision. -/
theorem locFileSinode_cases {xloc : Option XLoc} {locFile : Option Nat}
    (h : locFileSinode R st xloc = some (st', locFile)) :
    st' = st ∨ ∃ file,
      sinodeInsert (st.alloc (sinodeNew .file file)) R st.next .none = some st' := by
  unfold locFileSinode at h
  split at h
  · cases h
    exact Or.inl rfl
  · rename_i file _
    split at h
    · cases h
      exact Or.inl rfl
    · obtain ⟨_, hins, hpair⟩ := Option.map_eq_some_iff.mp h
      cases hpair
      exact Or.inr ⟨file, hins⟩

/-- **What a step decides.** -/
theorem planOf_cases (hflag : ∀ p, (src.sinodes.sn p).weakFlag = 0 ∨
      (src.sinodes.sn p).weakFlag = -1) {sn : SinodeStore} {plan : Plan}
    (h : planOf Z R src e = some (sn, plan)) :
    (sn = src.sinodes ∨ ∃ file, sinodeInsert (src.sinodes.alloc (sinodeNew .file file)) R
      src.sinodes.next .none = some sn) ∧
    ((eventDef e = none ∧ (plan = .nothing ∨ ∃ tc addr, plan = .typenode tc addr)) ∨
      ∃ s, MadeFrom Z e s ∧ Decided sn s plan) := by
  cases e with
  | gimple buf rf o =>
    obtain ⟨rfl, rfl, hclass⟩ | ⟨ty₀, name₀, xloc, locFile, hclass, hloc, hcase⟩ :=
      gimpleDecide_cases h
    · refine ⟨Or.inl rfl, Or.inl ⟨?_, Or.inl rfl⟩⟩
      obtain hclass | hclass := hclass <;> simp [eventDef, hclass]
    · refine ⟨locFileSinode_cases hloc, ?_⟩
      obtain ⟨t, name, hnode, hname, rfl⟩ | ⟨ty, name, hfile, hname, hplan⟩ := hcase
      · refine Or.inl ⟨?_, Or.inr ⟨_, _, rfl⟩⟩
        obtain ⟨rfl, -⟩ | ⟨rfl, -⟩ := finishName_cases hname <;> simp [eventDef, hclass]
      · exact Or.inr ⟨_, .object hclass hname, gimplePlan_outcome hfile hplan⟩
  | asmSym buf rf sym =>
    simp only [planOf] at h
    split at h
    · cases h
    obtain ⟨_, hplan, hpair⟩ := Option.map_eq_some_iff.mp h
    cases hpair
    refine ⟨Or.inl rfl, ?_⟩
    unfold asmDecide at hplan
    split at hplan
    · rename_i hty
      cases hplan
      exact Or.inl ⟨by simp [eventDef, hty], Or.inl rfl⟩
    · cases hplan
    · rename_i ty name hty hname
      cases hplan
      exact Or.inr ⟨_, .symbol hty hname, asmPlan_outcome hflag hty⟩
  | asmFile buf srcfile => cases h
  | addBuiltin rf => cases h

/-- Sinode and definition of an event agree; only a type has no definition. -/
theorem MadeFrom.facts {s : Sinode} (h : MadeFrom Z e s) :
    s.weakFlag = signedBit s.fromWeak ∧
      (eventDef e = some ⟨s.type, s.name, s.buf.rf, s.fromWeak⟩ ∨
        eventDef e = none ∧ s.type = .type) := by
  cases h with
  | @object buf rf o ty₀ ty name₀ name xloc locFile hclass hname =>
    have hfacts := gimpleSinode_facts Z ⟨buf, rf, .gimple⟩ o ty name xloc locFile
    simp only at hfacts
    obtain ⟨hty, hn, hbuf, -, hweak, hflag, -⟩ := hfacts
    refine ⟨hflag.trans (by rw [hweak]), ?_⟩
    rw [hty, hn, hbuf, hweak]
    obtain ⟨rfl, rfl⟩ | ⟨rfl, hnone | hsome⟩ := finishName_cases hname
    · simp only [eventDef, hclass]
      split
      · rename_i htype
        exact Or.inr ⟨rfl, htype⟩
      · exact Or.inl rfl
    · cases hnone
    · cases hsome
      exact Or.inr ⟨by simp [eventDef, hclass], rfl⟩
  | @symbol buf rf sym ty name locFile hty hname =>
    refine ⟨rfl, Or.inl ?_⟩
    simp only [eventDef, hty, hname]
    rfl

theorem MadeFrom.flag {s : Sinode} (h : MadeFrom Z e s) : s.weakFlag = 0 ∨ s.weakFlag = -1 := by
  rw [h.facts.1]
  exact signedBit_cases _

end Srcinv.Analysis
