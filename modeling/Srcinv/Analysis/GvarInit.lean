import Srcinv.Analysis.Possible

/-!
# Initialisers (`do_phase4_gvar` in `analysis/gcc/c.cc`)

The initialiser of a global variable is a tree of constructors with values at its leaves.  The pass
goes down the tree with the `var_node` that a value is for: in a record or a union the field is
looked for among the children of the type node, the elements of an array of structures are read as
structures, and the elements of any other array stay with the variable, whatever is in them.

* `given` — where the values of an initialiser belong: to the field of the innermost record around
  them, to the variable if there is none.
* `Fits`, `Detailed` — an initialiser has the type of its variable; the type nodes are as phase 3
  leaves them, with fields that can be told apart.
* `Strays` — a value for a field stands in an array that is not one of structures.
* `initials_exact` — **what is entered is what the initialisers give exactly if no value strays;
  then every `var_node` has its values once each, in the order in which they are given.**
-/

namespace Srcinv.Analysis.GvarInit

open TypeDetail TargetField Srcinv.Lib

/-! ## Trees -/

/-- What an `ADDR_EXPR` is the address of.  A literal comes with the `DECL_INITIAL` of its
    declaration, if it has one. -/
inductive AddrOperand (T : Type) where
  | null
  | functionDecl (n : Nat)
  | varDecl
  | stringCst (pointer length : Nat)
  | componentRef
  | arrayRef
  | compoundLiteral (initial : Option T)
  | other

/-- `constructor_elt`. -/
structure ConstructorElt (T : Type) where
  index : Option Nat
  value : T

/-- An initialiser: its `TREE_TYPE`, its address where that is entered, and what is below it. -/
inductive InitTree where
  | null
  | constructor (type : Nat) (elts : Option (List (ConstructorElt InitTree)))
  | integerCst (type low : Nat)
  | realCst (type addr : Nat)
  | stringCst (type pointer length : Nat)
  | addrExpr (type addr : Nat) (op0 : AddrOperand InitTree)
  | nopExpr (type : Nat) (op0 : InitTree)
  | plusExpr (type addr : Nat)
  | other (type : Nat)

/-- `TREE_TYPE`. -/
def InitTree.type : InitTree → Option Nat
  | null => none
  | constructor type _ | integerCst type _ | realCst type _ | stringCst type _ _
  | addrExpr type _ _ | nopExpr type _ | plusExpr type _ | other type => some type

variable (st : TraceStore)

/-! ## The values -/

/-- Where the loop over the elements of a constructor starts: a record at its first field.  For
    other types there is no loop ("miss"). -/
def initStart (type : Nat) : Option (Option Nat) :=
  match (st.tree type).code with
  | .record => some ((st.tree type).fields.head?.map TypeDetail.FieldDecl.decl)
  | .union => some none
  | _ => none

/-- `get_func_sinode` of a declaration. -/
def funcSinode (n : Nat) : Option (Option Nat) :=
  getFuncSinode st.toSinodeStore (st.resfile n) (st.decl n) true

/-- `add_possible` for a variable, or through the `NULL` of a field that is not found. -/
def addTo (vn : Option VarNode) (valueFlag : ValueFlag) (value extra : Nat) :
    Option (List PossibleCall) :=
  vn.map fun vn => [⟨vn.id, valueFlag, value, extra⟩]

mutual

/-- `do_init_value`: the calls of `add_possible` in their order.  `none` is a failed `BUG_ON` or a
    read through a null pointer.  The variable is `none` for a field that is not found: its address
    is passed on, and read where there is something to do. -/
def doInitValue : InitTree → Option VarNode → Option (List PossibleCall)
  | .null, _ => some []
  | .constructor _ none, _ => some []
  | .constructor type (some elts), vn =>
    match vn.bind VarNode.type with
    | none => none
    | some t =>
      if isRecord (st.typeCode t) then
        -- `do_struct_init`, `do_union_init`
        match initStart st type with
        | none => some []
        | some field => doConstructorInit elts t field
      else
        match (st.nodes t).next with
        | none => none
        | some next =>
          -- an array, and an array of structures
          if st.typeCode next ≠ .record then doInitElts elts vn
          else doStructInits elts next
  | .integerCst _ low, vn => addTo vn .intCst low 0
  | .realCst _ addr, vn => addTo vn .realCst addr 0
  | .stringCst _ pointer length, vn => addTo vn .strCst pointer length
  | .addrExpr _ addr op0, vn => doInitAddr op0 vn addr
  | .nopExpr _ op0, vn => doInitValue op0 vn
  | .plusExpr _ addr, vn => addTo vn .expr addr 0
  | .other _, _ => some []

/-- The case of an `ADDR_EXPR`, which is at `addr`. -/
def doInitAddr : AddrOperand InitTree → Option VarNode → Nat → Option (List PossibleCall)
  | .null, _, _ => some []
  | .functionDecl n, vn, _ =>
    match funcSinode st n with
    | none => none
    | some none => addTo vn .tree n 0
    | some (some fsn) => addTo vn .func (st.id fsn) 0
  | .varDecl, vn, addr => addTo vn .varAddr addr 0
  | .stringCst pointer length, vn, _ => addTo vn .strCst pointer length
  | .componentRef, vn, addr => addTo vn .varAddr addr 0
  | .arrayRef, vn, addr => addTo vn .expr addr 0
  | .compoundLiteral none, _, _ => none
  | .compoundLiteral (some initial), vn, _ => doInitValue initial vn
  -- the log is told the name of the variable
  | .other, vn, _ => vn.map fun _ => []

/-- The loop over the elements of an array. -/
def doInitElts : List (ConstructorElt InitTree) → Option VarNode → Option (List PossibleCall)
  | [], _ => some []
  | ⟨_, value⟩ :: elts, vn =>
    (doInitValue value vn).bind fun calls => (doInitElts elts vn).map (calls ++ ·)

/-- The loop over the elements of an array of structures. -/
def doStructInits : List (ConstructorElt InitTree) → Nat → Option (List PossibleCall)
  | [], _ => some []
  | ⟨_, value⟩ :: elts, tn =>
    (doStructInit value tn).bind fun calls => (doStructInits elts tn).map (calls ++ ·)

/-- `do_struct_init`.  Of a tree that is no constructor the elements are read too, but nothing is
    done with them unless its type is a record. -/
def doStructInit : InitTree → Nat → Option (List PossibleCall)
  | .null, _ => none
  | .constructor _ none, _ => some []
  | .constructor type (some elts), tn =>
    match initStart st type with
    | none => some []
    | some field => doConstructorInit elts tn field
  | t, _ => if (t.type.bind (initStart st)).isSome then none else some []

/-- The loop of `__do_constructor_init`: an element without an index is for the field behind the one
    before. -/
def doConstructorInit :
    List (ConstructorElt InitTree) → Nat → Option Nat → Option (List PossibleCall)
  | [], _, _ => some []
  | ⟨index, value⟩ :: elts, tn, field =>
    let field := index.or field
    match getTargetField0 st.toFieldGraph tn field with
    | none => none
    | some vnl =>
      (doInitValue value (vnl.map FieldVar.var)).bind fun calls =>
        -- `DECL_CHAIN (field)`
        match field with
        | none => none
        | some f => (doConstructorInit elts tn (st.field f).chain).map (calls ++ ·)

end

/-- `do_phase4_gvar` with the `var_node` and the `DECL_INITIAL` of the variable. -/
def doPhase4Gvar (vn : VarNode) (initial : InitTree) : TraceM Unit := fun s =>
  (doInitValue st initial (some vn)).bind fun calls => (addPossibles s calls).map ((), ·)

/-- The variables of `do_phase4`, and the static ones that `do_var_decl_phase4` comes to. -/
def doPhase4Gvars (inits : List (VarNode × InitTree)) : TraceM Unit :=
  inits.forM fun (vn, initial) => doPhase4Gvar st vn initial

/-! ## Where the values belong -/

/-- A value: its kind, the number and the length of a string. -/
abbrev Value : Type := ValueFlag × Nat × Nat

/-- The `var_node` of a field in the type node of the record that it is a field of. -/
def fieldPlace (type field : Nat) : Option Nat :=
  (st.findTypeNode type).bind fun tn =>
    ((fieldIdx st.toFieldGraph type field).bind fun i => (fieldVars st.toFieldGraph tn)[i]?).map
      fun c => c.var.id

/-- The value of an `ADDR_EXPR` that has one of its own. -/
def addrValue (addr : Nat) : AddrOperand InitTree → Option Value
  | .functionDecl n =>
    match funcSinode st n with
    | some (some fsn) => some (.func, st.id fsn, 0)
    | _ => some (.tree, n, 0)
  | .varDecl | .componentRef => some (.varAddr, addr, 0)
  | .stringCst pointer length => some (.strCst, pointer, length)
  | .arrayRef => some (.expr, addr, 0)
  | .null | .compoundLiteral _ | .other => none

/-- The value of a tree that has one of its own. -/
def ownValue : InitTree → Option Value
  | .integerCst _ low => some (.intCst, low, 0)
  | .realCst _ addr => some (.realCst, addr, 0)
  | .stringCst _ pointer length => some (.strCst, pointer, length)
  | .addrExpr _ addr op0 => addrValue st addr op0
  | .plusExpr _ addr => some (.expr, addr, 0)
  | .null | .constructor .. | .nopExpr .. | .other _ => none

/-- The tree that a tree stands for. -/
def InitTree.inner : InitTree → Option InitTree
  | .nopExpr _ op0 => some op0
  | .addrExpr _ _ (.compoundLiteral initial) => initial
  | _ => none

/-- The elements of a constructor with the fields that they are for. -/
def withFields : Option Nat → List (ConstructorElt InitTree) → List (Option Nat × InitTree)
  | _, [] => []
  | field, ⟨index, value⟩ :: elts =>
    (index.or field, value) ::
      withFields ((index.or field).bind fun f => (st.field f).chain) elts

/-- The elements of a constructor with their places, for a constructor at `p`. -/
def eltPlaces (type : Nat) (elts : List (ConstructorElt InitTree)) (p : Option Nat) :
    List (Option Nat × InitTree) :=
  match initStart st type with
  | none => elts.map fun e => (p, e.value)
  | some field => (withFields st field elts).map fun (f, v) => (f.bind (fieldPlace st type), v)

mutual

/-- **The values that an initialiser gives, in their order, with the places they are given to.**
    The initialiser is for the place `p`. -/
def given : InitTree → Option Nat → List (Option Nat × Value)
  | .constructor _ none, _ => []
  | .constructor type (some elts), p =>
    match initStart st type with
    | none => givenElts elts p
    | some field => givenFields elts type field
  | .nopExpr _ op0, p => given op0 p
  | .addrExpr _ _ (.compoundLiteral (some initial)), p => given initial p
  | t, p => (ownValue st t).toList.map (p, ·)

/-- The elements of an array. -/
def givenElts : List (ConstructorElt InitTree) → Option Nat → List (Option Nat × Value)
  | [], _ => []
  | ⟨_, value⟩ :: elts, p => given value p ++ givenElts elts p

/-- The fields of a record. -/
def givenFields :
    List (ConstructorElt InitTree) → Nat → Option Nat → List (Option Nat × Value)
  | [], _, _ => []
  | ⟨index, value⟩ :: elts, type, field =>
    given value ((index.or field).bind (fieldPlace st type)) ++
      givenFields elts type ((index.or field).bind fun f => (st.field f).chain)

end

/-! ## Initialisers that fit -/

/-- A tree with a value of its own, or none.  The address of a function is looked up. -/
inductive Leaf : InitTree → Prop
  | null : Leaf .null
  | integerCst (type low : Nat) : Leaf (.integerCst type low)
  | realCst (type addr : Nat) : Leaf (.realCst type addr)
  | stringCst (type pointer length : Nat) : Leaf (.stringCst type pointer length)
  | functionDecl (type addr : Nat) {n : Nat} {fsn : Option Nat} (h : funcSinode st n = some fsn) :
    Leaf (.addrExpr type addr (.functionDecl n))
  | addrExpr (type addr : Nat) {op0 : AddrOperand InitTree} (hfunc : ∀ n, op0 ≠ .functionDecl n)
    (hlit : ∀ initial, op0 ≠ .compoundLiteral initial) : Leaf (.addrExpr type addr op0)
  | plusExpr (type addr : Nat) : Leaf (.plusExpr type addr)
  | other (type : Nat) : Leaf (.other type)

/-- A tree that is read as a structure. -/
def IsConstructor (t : InitTree) : Prop := ∃ type elts, t = .constructor type elts

/-- The code of the elements of an array type, or of what a pointer type points to. -/
def elemCode (type : Nat) : TypeCode := (st.tree (st.tree type).type).code

/-- **The initialiser fits the type.**  Constructors have the type, their elements the types of the
    fields or of the elements, and all of these have type nodes.  A structure in an array is given
    by a constructor.  Behind an address is a literal of elements of what is pointed to, and not
    of a record. -/
inductive Fits : InitTree → Nat → Prop
  | leaf {t : InitTree} {type : Nat} (h : Leaf st t) : Fits t type
  | empty {ctype type : Nat} : Fits (.constructor ctype none) type
  | cast {ctype type : Nat} {op0 : InitTree} (h : Fits op0 type) : Fits (.nopExpr ctype op0) type
  | record {type : Nat} {elts : List (ConstructorElt InitTree)} {start : Option Nat}
    (htn : (TypeDetail.target st.toTypeGraph type).isSome) (hstart : initStart st type = some start)
    (hin : ∀ x ∈ withFields st start elts, ∃ fd ∈ (st.tree type).fields, x.1 = some fd.decl)
    (hfits : ∀ x ∈ withFields st start elts, ∀ fd ∈ (st.tree type).fields, x.1 = some fd.decl →
      Fits x.2 fd.type) : Fits (.constructor type (some elts)) type
  | array {type : Nat} {elts : List (ConstructorElt InitTree)}
    (htn : (TypeDetail.target st.toTypeGraph type).isSome)
    (hcode : (st.tree type).code = .array ∨ (st.tree type).code = .vector)
    (helem : (TypeDetail.target st.toTypeGraph (st.tree type).type).isSome)
    (hstructs : elemCode st type = .record → ∀ e ∈ elts, IsConstructor e.value)
    (hfits : ∀ e ∈ elts, Fits e.value (st.tree type).type) :
    Fits (.constructor type (some elts)) type
  | literal {type ltype atype addr : Nat} {elts : List (ConstructorElt InitTree)}
    (htn : (TypeDetail.target st.toTypeGraph type).isSome) (hcode : (st.tree type).code = .pointer)
    (hltype : (st.tree ltype).code = .array)
    (hsame : TypeDetail.target st.toTypeGraph (st.tree type).type =
      TypeDetail.target st.toTypeGraph (st.tree ltype).type)
    (h : Fits (.constructor ltype (some elts)) ltype) :
    Fits (.addrExpr atype addr (.compoundLiteral (some (.constructor ltype (some elts))))) type

/-- **The type node of a type**, as `TypesRight` has it after phase 3.  Its children were made from
    the fields of one of the types that share the node. -/
structure NodeFits (type tn : Nat) : Prop where
  code : st.typeCode tn = (st.tree type).code
  next : (st.nodes tn).next = TypeDetail.nextOf st.toTypeGraph type
  children : (st.nodes tn).children.map TypeChild.shape =
    (childrenOf st.toTypeGraph type).map TypeChild.shape
  stands : ∀ (i : Nat) (fd : TypeDetail.FieldDecl) (decl : Nat) (name : Option Name)
    (t : Option Nat),
    (st.tree type).fields[i]? = some fd → (st.nodes tn).children[i]? = some (.field decl name t) →
      StandsFor st.toFieldGraph decl fd.decl

/-- Every type node is right for its types, and the fields of every record can be told apart. -/
structure Detailed : Prop where
  node : ∀ type tn, TypeDetail.target st.toTypeGraph type = some tn → NodeFits st type tn
  toldApart : ∀ tn, isRecord (st.typeCode tn) →
    ToldApart st.toFieldGraph ((fieldVars st.toFieldGraph tn).map FieldVar.decl)

/-- **A value strays**: somewhere in the initialiser for the place `p` is an array with elements
    that are not structures, and in it a value that belongs to another place than the array, to a
    field of a union or of a structure further in. -/
inductive Strays : InitTree → Option Nat → Prop
  | outside {type : Nat} {elts : List (ConstructorElt InitTree)} {p : Option Nat}
    {x : Option Nat × Value} (hstart : initStart st type = none)
    (hcode : elemCode st type ≠ .record)
    (hx : x ∈ given st (.constructor type (some elts)) p) (hp : x.1 ≠ p) :
    Strays (.constructor type (some elts)) p
  | element {type : Nat} {elts : List (ConstructorElt InitTree)} {p : Option Nat}
    {e : ConstructorElt InitTree} (hstart : initStart st type = none)
    (hcode : elemCode st type = .record) (he : e ∈ elts) (h : Strays e.value p) :
    Strays (.constructor type (some elts)) p
  | field {type : Nat} {elts : List (ConstructorElt InitTree)} {p start f : Option Nat}
    {v : InitTree} (hstart : initStart st type = some start)
    (hmem : (f, v) ∈ withFields st start elts) (h : Strays v (f.bind (fieldPlace st type))) :
    Strays (.constructor type (some elts)) p
  | inner {t u : InitTree} {p : Option Nat} (hu : t.inner = some u) (h : Strays u p) : Strays t p

/-! ## Going through the elements -/

section Elements

variable {type : Nat} {elts : List (ConstructorElt InitTree)} {p : Option Nat}

/-- The elements come in their order, with their values. -/
theorem withFields_values (start : Option Nat) :
    (withFields st start elts).map Prod.snd = elts.map ConstructorElt.value := by
  induction elts generalizing start with
  | nil => rfl
  | cons e elts ih => simp only [withFields, List.map_cons, ih]

theorem eltPlaces_values (type : Nat) (p : Option Nat) :
    (eltPlaces st type elts p).map Prod.snd = elts.map ConstructorElt.value := by
  unfold eltPlaces
  split
  · rw [List.map_map]
    rfl
  · rw [List.map_map, ← withFields_values st]
    rfl

theorem mem_withFields {start f : Option Nat} {v : InitTree}
    (h : (f, v) ∈ withFields st start elts) : ∃ e ∈ elts, e.value = v := by
  have hmem := List.mem_map_of_mem (f := Prod.snd) h
  rw [withFields_values] at hmem
  exact List.mem_map.mp hmem

theorem mem_eltPlaces {p' : Option Nat} {v : InitTree} (h : (p', v) ∈ eltPlaces st type elts p) :
    ∃ e ∈ elts, e.value = v := by
  have hmem := List.mem_map_of_mem (f := Prod.snd) h
  rw [eltPlaces_values] at hmem
  exact List.mem_map.mp hmem

/-- The elements are smaller than the constructor. -/
theorem sizeOf_value_lt {e : ConstructorElt InitTree} (he : e ∈ elts) :
    sizeOf e.value < sizeOf (InitTree.constructor type (some elts)) := by
  have hlt : sizeOf e < sizeOf elts := List.sizeOf_lt_of_mem he
  obtain ⟨index, value⟩ := e
  simp only [ConstructorElt.mk.sizeOf_spec] at hlt
  simp only [InitTree.constructor.sizeOf_spec, Option.some.sizeOf_spec]
  omega

theorem sizeOf_inner_lt {t u : InitTree} (h : t.inner = some u) : sizeOf u < sizeOf t := by
  cases t with
  | nopExpr type op0 =>
    cases h
    simp only [InitTree.nopExpr.sizeOf_spec]
    omega
  | addrExpr type addr op0 =>
    cases op0 with
    | compoundLiteral initial =>
      obtain rfl : initial = some u := h
      simp only [InitTree.addrExpr.sizeOf_spec, AddrOperand.compoundLiteral.sizeOf_spec,
        Option.some.sizeOf_spec]
      omega
    | _ => cases h
  | _ => cases h

/-! What an initialiser gives. -/

theorem givenElts_eq : givenElts st elts p = (elts.map fun e => (p, e.value)).flatMap
    fun x => given st x.2 x.1 := by
  induction elts with
  | nil => rfl
  | cons e elts ih => simp only [givenElts, List.map_cons, List.flatMap_cons, ih]

theorem givenFields_eq (start : Option Nat) : givenFields st elts type start =
    (withFields st start elts).flatMap fun x => given st x.2 (x.1.bind (fieldPlace st type)) := by
  induction elts generalizing start with
  | nil => rfl
  | cons e elts ih => simp only [givenFields, withFields, List.flatMap_cons, ih]

theorem given_constructor : given st (.constructor type (some elts)) p =
    (eltPlaces st type elts p).flatMap fun x => given st x.2 x.1 := by
  rw [given, eltPlaces]
  cases initStart st type with
  | none => exact givenElts_eq st
  | some field =>
    dsimp only
    rw [givenFields_eq, List.flatMap_map]

theorem given_own {t : InitTree} {v : Value} (h : ownValue st t = some v) :
    given st t p = [(p, v)] := by
  cases t with
  | null | constructor | nopExpr | other => cases h
  | addrExpr type addr op0 =>
    cases op0 with
    | compoundLiteral => cases h
    | _ =>
      rw [given, h]
      · rfl
      all_goals simp
  | _ =>
    rw [given, h]
    · rfl
    all_goals simp

theorem given_inner {t u : InitTree} (h : t.inner = some u) : given st t p = given st u p := by
  cases t with
  | nopExpr type op0 =>
    cases h
    rw [given]
  | addrExpr type addr op0 =>
    cases op0 with
    | compoundLiteral initial =>
      obtain rfl : initial = some u := h
      rw [given]
    | _ => cases h
  | _ => cases h

/-! What the pass does. -/

theorem doInitElts_eq (type : Nat) (p : Option Nat) (vn : Option VarNode) : doInitElts st elts vn =
    gather (fun x => doInitValue st x.2 vn) (eltPlaces st type elts p) := by
  have hvals : doInitElts st elts vn =
      gather (fun v => doInitValue st v vn) (elts.map ConstructorElt.value) := by
    induction elts with
    | nil => rfl
    | cons e elts ih => simp only [doInitElts, List.map_cons, gather, ih]
  rw [hvals, ← eltPlaces_values st type p, gather_map]

theorem doStructInits_eq (type : Nat) (p : Option Nat) (tn : Nat) : doStructInits st elts tn =
    gather (fun x => doStructInit st x.2 tn) (eltPlaces st type elts p) := by
  have hvals : doStructInits st elts tn =
      gather (fun v => doStructInit st v tn) (elts.map ConstructorElt.value) := by
    induction elts with
    | nil => rfl
    | cons e elts ih => simp only [doStructInits, List.map_cons, gather, ih]
  rw [hvals, ← eltPlaces_values st type p, gather_map]

/-- One turn of the loop of `__do_constructor_init`. -/
def doFieldInit (tn : Nat) (x : Option Nat × InitTree) : Option (List PossibleCall) :=
  match getTargetField0 st.toFieldGraph tn x.1 with
  | none => none
  | some vnl => doInitValue st x.2 (vnl.map FieldVar.var)

/-- The loop, when every element is for a field. -/
theorem doConstructorInit_eq {tn : Nat} {start : Option Nat}
    (hsome : ∀ x ∈ withFields st start elts, x.1.isSome) :
    doConstructorInit st elts tn start = gather (doFieldInit st tn) (withFields st start elts) := by
  induction elts generalizing start with
  | nil => rfl
  | cons e elts ih =>
    rw [withFields] at hsome ⊢
    obtain ⟨f, hf⟩ := Option.isSome_iff_exists.mp (hsome _ List.mem_cons_self)
    dsimp only at hf
    rw [hf] at hsome ⊢
    have hrest : doConstructorInit st elts tn (st.field f).chain =
        gather (doFieldInit st tn) (withFields st (st.field f).chain elts) :=
      ih fun x hx => hsome x (List.mem_cons_of_mem _ hx)
    simp only [doConstructorInit, gather, doFieldInit, hf, Option.bind_some, hrest]
    cases getTargetField0 st.toFieldGraph tn (some f) with
    | none => rfl
    | some vnl => rfl

end Elements

/-! ## By the shape of the tree -/

theorem InitTree.induction {motive : InitTree → Prop}
    (h : ∀ t, (∀ u, sizeOf u < sizeOf t → motive u) → motive t) (t : InitTree) : motive t :=
  h t fun u _ => InitTree.induction h u
  termination_by sizeOf t

variable {st} {t u : InitTree} {p : Option Nat} {vn : VarNode} {v : Value} {type tn : Nat}
  {elts : List (ConstructorElt InitTree)} {start : Option Nat}

/-- The call that enters a value. -/
def located (c : PossibleCall) : Option Nat × Value :=
  (some c.vn, c.valueFlag, c.value, c.extra)

/-- A value, as it is entered at `vn` wherever it belongs. -/
def enteredAt (vn : VarNode) (x : Option Nat × Value) : Option Nat × Value := (some vn.id, x.2)

/-- What is entered for a leaf is what it gives, at the variable. -/
theorem Leaf.run (h : Leaf st t) (vn : VarNode) (p : Option Nat) :
    ∃ calls, doInitValue st t (some vn) = some calls ∧
      calls.map located = (given st t p).map (enteredAt vn) := by
  cases h with
  | null => exact ⟨[], rfl, rfl⟩
  | other type => exact ⟨[], rfl, rfl⟩
  | @functionDecl type addr n fsn h =>
    cases fsn with
    | none =>
      refine ⟨[⟨vn.id, .tree, n, 0⟩], ?_, ?_⟩
      · simp [doInitValue, doInitAddr, h, addTo]
      · simp [given, ownValue, addrValue, h, located, enteredAt]
    | some fsn =>
      refine ⟨[⟨vn.id, .func, st.id fsn, 0⟩], ?_, ?_⟩
      · simp [doInitValue, doInitAddr, h, addTo]
      · simp [given, ownValue, addrValue, h, located, enteredAt]
  | @addrExpr type addr op0 hfunc hlit =>
    cases op0 with
    | functionDecl n => exact absurd rfl (hfunc n)
    | compoundLiteral initial => exact absurd rfl (hlit initial)
    | null => exact ⟨[], rfl, rfl⟩
    | other => exact ⟨[], rfl, rfl⟩
    | _ => exact ⟨_, rfl, rfl⟩
  | _ => exact ⟨_, rfl, rfl⟩

/-- The place of a leaf is that of its initialiser. -/
theorem Leaf.given_place (h : Leaf st t) {x : Option Nat × Value} (hx : x ∈ given st t p) :
    x.1 = p := by
  have hown : given st t p = (ownValue st t).toList.map (p, ·) := by
    cases h with
    | @addrExpr type addr op0 hfunc hlit =>
      cases op0 with
      | compoundLiteral initial => exact absurd rfl (hlit initial)
      | _ => rfl
    | _ => rfl
  rw [hown] at hx
  obtain ⟨v, -, rfl⟩ := List.mem_map.mp hx
  rfl

theorem Leaf.not_strays (h : Leaf st t) : ¬ Strays st t p := by
  intro hs
  cases h with
  | @addrExpr type addr op0 hfunc hlit =>
    cases hs with
    | inner hu =>
      cases op0 with
      | compoundLiteral initial => exact hlit initial rfl
      | _ => cases hu
  | _ =>
    cases hs with
    | inner hu => cases hu

/-- A tree that stands for another does what that does. -/
theorem doInitValue_inner (h : t.inner = some u) (vn : Option VarNode) :
    doInitValue st t vn = doInitValue st u vn := by
  cases t with
  | nopExpr type op0 =>
    cases h
    rfl
  | addrExpr type addr op0 =>
    cases op0 with
    | compoundLiteral initial =>
      obtain rfl : initial = some u := h
      rfl
    | _ => cases h
  | _ => cases h

theorem strays_inner (hu : t.inner = some u) : Strays st t p ↔ Strays st u p := by
  constructor
  · intro h
    cases h with
    | inner hu' h =>
      rw [hu] at hu'
      cases hu'
      exact h
    | outside | element | field => cases hu
  · exact .inner hu

/-! ## A variable that everything is entered at -/

/-- The type node of the variable is that of an array of what is no structure, or of a pointer to
    it. -/
def Flat (st : TraceStore) (vn : VarNode) : Prop :=
  ∃ t next, vn.type = some t ∧ ¬ isRecord (st.typeCode t) ∧ (st.nodes t).next = some next ∧
    st.typeCode next ≠ .record

theorem doInitValue_flat (hflat : Flat st vn) :
    doInitValue st (.constructor type (some elts)) (some vn) = doInitElts st elts (some vn) := by
  obtain ⟨t, next, ht, hrec, hnext, hcode⟩ := hflat
  rw [doInitValue, Option.bind_some, ht]
  dsimp only
  rw [if_neg hrec, hnext]
  dsimp only
  rw [if_pos hcode]

/-- **All that an initialiser gives is entered at the variable itself.** -/
theorem Fits.run_flat (h : Fits st t type) (hflat : Flat st vn) (p : Option Nat) :
    ∃ calls, doInitValue st t (some vn) = some calls ∧
      calls.map located = (given st t p).map (enteredAt vn) := by
  induction h generalizing p with
  | leaf h => exact h.run vn p
  | empty => exact ⟨[], rfl, rfl⟩
  | cast h ih =>
    rw [doInitValue_inner rfl, given_inner st rfl]
    exact ih p
  | @record type elts start htn hstart hin hfits ih =>
    rw [doInitValue_flat hflat, doInitElts_eq st type p, given_constructor]
    refine gather_congr fun x hx => ?_
    rw [eltPlaces, hstart] at hx
    obtain ⟨⟨f, w⟩, hmem, rfl⟩ := List.mem_map.mp hx
    obtain ⟨fd, hfd, hf⟩ := hin _ hmem
    exact ih _ hmem fd hfd hf _
  | @array type elts htn hcode helem hstructs hfits ih =>
    rw [doInitValue_flat hflat, doInitElts_eq st type p, given_constructor]
    refine gather_congr fun x hx => ?_
    obtain ⟨e, he, hval⟩ := mem_eltPlaces st hx
    rw [← hval]
    exact ih e he x.1
  | literal htn hcode hltype hsame h ih =>
    rw [doInitValue_inner rfl, given_inner st rfl]
    exact ih p

/-! ## The field of a record -/

/-- Children that were made from fields like these stand in their order. -/
theorem fieldVars_getElem {G : FieldGraph} {children : List TypeChild}
    {fields : List TypeDetail.FieldDecl}
    (h : children.map TypeChild.shape =
      (fields.map fun f =>
        .field f.decl f.name (TypeDetail.target G.toTypeGraph f.type)).map TypeChild.shape)
    {i : Nat} {fd : TypeDetail.FieldDecl} (hfd : fields[i]? = some fd) :
    ∃ decl, children[i]? = some (.field decl fd.name (TypeDetail.target G.toTypeGraph fd.type)) ∧
      (children.filterMap (fieldVar G))[i]? =
        some ⟨decl, ⟨G.fieldVn decl, TypeDetail.target G.toTypeGraph fd.type⟩⟩ := by
  induction children generalizing fields i with
  | nil =>
    cases fields with
    | nil => cases hfd
    | cons f fields => cases h
  | cons c children ih =>
    cases fields with
    | nil => cases h
    | cons f fields =>
      obtain ⟨hc, hrest⟩ := List.cons.inj h
      cases c with
      | enumerator node name value => cases hc
      | vaList node => cases hc
      | field decl name t =>
        obtain ⟨-, rfl, rfl⟩ := TypeChild.field.inj hc
        cases i with
        | zero =>
          cases hfd
          exact ⟨decl, rfl, rfl⟩
        | succ i => exact ih hrest hfd

theorem isRecord_of_initStart (h : initStart st type = some start) :
    isRecord (st.tree type).code = true ∧
      childrenOf st.toTypeGraph type = (st.tree type).fields.map fun f =>
        .field f.decl f.name (TypeDetail.target st.toTypeGraph f.type) := by
  unfold initStart at h
  unfold childrenOf
  cases hc : (st.tree type).code <;> rw [hc] at h <;> first | exact ⟨rfl, rfl⟩ | cases h

theorem target_eq_findTypeNode (h : initStart st type = some start) :
    TypeDetail.target st.toTypeGraph type = st.findTypeNode type := by
  unfold initStart at h
  unfold TypeDetail.target
  cases hc : (st.tree type).code <;> rw [hc] at h <;> first | exact if_pos rfl | cases h

/-- **The field is found**, at the place where the values for it belong. -/
theorem Detailed.field (hd : Detailed st) (htn : TypeDetail.target st.toTypeGraph type = some tn)
    (hstart : initStart st type = some start) {fd : TypeDetail.FieldDecl}
    (hfd : fd ∈ (st.tree type).fields) :
    ∃ c, getTargetField0 st.toFieldGraph tn (some fd.decl) = some (some c) ∧
      fieldPlace st type fd.decl = some c.var.id ∧
      ∃ fd' ∈ (st.tree type).fields, fd'.decl = fd.decl ∧
        c.var.type = TypeDetail.target st.toTypeGraph fd'.type := by
  obtain ⟨hrec, hchildren⟩ := isRecord_of_initStart hstart
  have hnode := hd.node type tn htn
  -- the first field at this address
  obtain ⟨i, hidx⟩ := Option.isSome_iff_exists.mp
    (List.isSome_idxOf?.mpr (List.mem_map_of_mem (f := TypeDetail.FieldDecl.decl) hfd))
  obtain ⟨fd', hfd', hdecl⟩ : ∃ fd', (st.tree type).fields[i]? = some fd' ∧ fd'.decl = fd.decl := by
    obtain ⟨hlt, hget, -⟩ := List.idxOf?_eq_some_iff.mp hidx
    rw [List.length_map] at hlt
    refine ⟨(st.tree type).fields[i], List.getElem?_eq_getElem hlt, ?_⟩
    simpa using hget
  have hshape := hnode.children
  rw [hchildren] at hshape
  obtain ⟨decl, hchild, hvar⟩ := fieldVars_getElem hshape hfd'
  have hstands := hnode.stands i fd' decl _ _ hfd' hchild
  rw [hdecl] at hstands
  have hrec' : isRecord (st.typeCode tn) = true := by
    rw [hnode.code]
    exact hrec
  refine ⟨_, getTargetField0_toldApart hrec' (hd.toldApart tn hrec') hvar hstands, ?_,
    fd', List.mem_of_getElem? hfd', hdecl, rfl⟩
  unfold fieldPlace
  have hidx' : fieldIdx st.toFieldGraph type fd.decl = some i := hidx
  rw [← target_eq_findTypeNode hstart, htn, Option.bind_some, hidx', Option.bind_some]
  exact congrArg (Option.map _) hvar

/-! ## Exactly what is given -/

/-- What is entered for a tree is what it gives. -/
def Lands (st : TraceStore) (t : InitTree) (vn : VarNode) : Prop :=
  (doInitValue st t (some vn)).map (List.map located) = some (given st t (some vn.id))

/-- A tree is read: no value is lost, and all are where they belong exactly if none strays. -/
structure ReadRight (st : TraceStore) (t : InitTree) (vn : VarNode) : Prop where
  values : ∃ calls, doInitValue st t (some vn) = some calls ∧
    calls.length = (given st t (some vn.id)).length
  lands : Lands st t vn ↔ ¬ Strays st t (some vn.id)

theorem Leaf.readRight (h : Leaf st t) (vn : VarNode) : ReadRight st t vn := by
  obtain ⟨calls, hrun, hcalls⟩ := h.run vn (some vn.id)
  refine ⟨⟨calls, hrun, by simpa using congrArg List.length hcalls⟩, ?_⟩
  refine iff_of_true ?_ h.not_strays
  rw [Lands, hrun, Option.map_some, hcalls, Option.some.injEq]
  refine (List.map_congr_left fun x hx => ?_).trans (List.map_id _)
  exact Prod.ext (h.given_place hx).symm rfl

theorem ReadRight.inner (hu : t.inner = some u) (h : ReadRight st u vn) : ReadRight st t vn := by
  have hgiven : given st t (some vn.id) = given st u (some vn.id) := given_inner st hu
  refine ⟨?_, ?_⟩
  · rw [doInitValue_inner hu, hgiven]
    exact h.values
  · rw [strays_inner hu, ← h.lands, Lands, Lands, doInitValue_inner hu, hgiven]

/-- Where all is entered at the variable, all has to belong there. -/
theorem readRight_flat (h : Fits st (.constructor type (some elts)) ctype) (hflat : Flat st vn)
    (hstart : initStart st type = none) (hcode : elemCode st type ≠ .record) :
    ReadRight st (.constructor type (some elts)) vn := by
  obtain ⟨calls, hrun, hcalls⟩ := h.run_flat hflat (some vn.id)
  refine ⟨⟨calls, hrun, by simpa using congrArg List.length hcalls⟩, ?_⟩
  rw [Lands, hrun, Option.map_some, hcalls, Option.some.injEq]
  constructor
  · intro heq hs
    cases hs with
    | outside _ _ hx hp =>
      rw [← heq] at hx
      obtain ⟨y, -, rfl⟩ := List.mem_map.mp hx
      exact hp rfl
    | element _ hcode' => exact hcode hcode'
    | field hstart' =>
      rw [hstart] at hstart'
      cases hstart'
    | inner hu => cases hu
  · intro hno
    refine (List.map_congr_left fun x hx => ?_).trans (List.map_id _)
    have hplace : x.1 = some vn.id :=
      Classical.not_not.mp fun hp => hno (.outside hstart hcode hx hp)
    exact Prod.ext hplace.symm rfl

/-- **A loop reads what its steps read.** -/
theorem gather_right {α : Type} {l : List α} {f : α → Option (List PossibleCall)}
    {g : α → List (Option Nat × Value)} {S : α → Prop}
    (hvalues : ∀ a ∈ l, ∃ calls, f a = some calls ∧ calls.length = (g a).length)
    (hlands : ∀ a ∈ l, (f a).map (List.map located) = some (g a) ↔ ¬ S a) :
    (∃ calls, gather f l = some calls ∧ calls.length = (l.flatMap g).length) ∧
      ((gather f l).map (List.map located) = some (l.flatMap g) ↔ ∀ a ∈ l, ¬ S a) := by
  constructor
  · obtain ⟨calls, hcalls, hlen⟩ :=
      gather_congr (f := f) (g := g) (m := fun _ => ()) (k := fun _ => ()) fun a ha => by
        obtain ⟨x, hx, hlen⟩ := hvalues a ha
        exact ⟨x, hx, by rw [List.map_const', List.map_const', hlen]⟩
    exact ⟨calls, hcalls, by simpa using congrArg List.length hlen⟩
  · rw [gather_exact located fun a ha x hx => ?_]
    · exact forall₂_congr hlands
    · obtain ⟨calls, hcalls, hlen⟩ := hvalues a ha
      rw [hx] at hcalls
      cases hcalls
      exact Nat.le_of_eq hlen

/-- A structure in an array is read as one. -/
theorem doStructInit_eq {next : Nat} (hrec : isRecord (st.typeCode next) = true)
    (ht : IsConstructor t) (id : Nat) :
    doStructInit st t next = doInitValue st t (some ⟨id, some next⟩) := by
  obtain ⟨type, elts, rfl⟩ := ht
  cases elts with
  | none => rfl
  | some elts =>
    rw [doStructInit, doInitValue, Option.bind_some]
    dsimp only
    rw [if_pos hrec]

/-- Elements that are read as structures. -/
theorem readRight_structs {t next : Nat} (ht : vn.type = some t) (hrec : ¬ isRecord (st.typeCode t))
    (hnext : (st.nodes t).next = some next) (hstruct : st.typeCode next = .record)
    (hstart : initStart st type = none) (hcode : elemCode st type = .record)
    (helts : ∀ e ∈ elts, IsConstructor e.value ∧ ReadRight st e.value ⟨vn.id, some next⟩) :
    ReadRight st (.constructor type (some elts)) vn := by
  have hplaces : eltPlaces st type elts (some vn.id) = elts.map fun e => (some vn.id, e.value) := by
    rw [eltPlaces, hstart]
  have hisrec : isRecord (st.typeCode next) = true := by
    rw [hstruct]
    rfl
  have hrun : doInitValue st (.constructor type (some elts)) (some vn) =
      gather (fun x => doStructInit st x.2 next) (eltPlaces st type elts (some vn.id)) := by
    rw [doInitValue, Option.bind_some, ht]
    dsimp only
    rw [if_neg hrec, hnext]
    dsimp only
    rw [if_neg (not_not.mpr hstruct), doStructInits_eq st type (some vn.id)]
  have hstep : ∀ x ∈ eltPlaces st type elts (some vn.id), x.1 = some vn.id ∧
      doStructInit st x.2 next = doInitValue st x.2 (some ⟨vn.id, some next⟩) ∧
      ReadRight st x.2 ⟨vn.id, some next⟩ := by
    intro x hx
    rw [hplaces] at hx
    obtain ⟨e, he, rfl⟩ := List.mem_map.mp hx
    exact ⟨rfl, doStructInit_eq hisrec (helts e he).1 vn.id, (helts e he).2⟩
  obtain ⟨hvalues, hlands⟩ := gather_right (S := fun x => Strays st x.2 (some vn.id))
    (f := fun x => doStructInit st x.2 next) (g := fun x => given st x.2 x.1)
    (l := eltPlaces st type elts (some vn.id))
    (fun x hx => by
      obtain ⟨hp, hdo, hright⟩ := hstep x hx
      rw [hdo, hp]
      exact hright.values)
    fun x hx => by
      obtain ⟨hp, hdo, hright⟩ := hstep x hx
      rw [hdo, hp]
      exact hright.lands
  rw [← given_constructor, ← hrun] at hvalues hlands
  refine ⟨hvalues, hlands.trans ?_⟩
  rw [hplaces]
  constructor
  · intro h hs
    cases hs with
    | element _ _ he hs => exact h _ (List.mem_map.mpr ⟨_, he, rfl⟩) hs
    | outside _ hcode' => exact hcode' hcode
    | field hstart' =>
      rw [hstart] at hstart'
      cases hstart'
    | inner hu => cases hu
  · intro h x hx hs
    obtain ⟨e, he, rfl⟩ := List.mem_map.mp hx
    exact h (.element hstart hcode he hs)

/-- The fields of a record. -/
theorem readRight_record (hd : Detailed st) (htn : TypeDetail.target st.toTypeGraph type = some tn)
    (hvn : vn.type = some tn) (hstart : initStart st type = some start)
    (hin : ∀ x ∈ withFields st start elts, ∃ fd ∈ (st.tree type).fields, x.1 = some fd.decl)
    (hright : ∀ x ∈ withFields st start elts, ∀ fd ∈ (st.tree type).fields, x.1 = some fd.decl →
      ∀ vn, vn.type = TypeDetail.target st.toTypeGraph fd.type → ReadRight st x.2 vn) :
    ReadRight st (.constructor type (some elts)) vn := by
  have hrec : isRecord (st.typeCode tn) = true := by
    rw [(hd.node type tn htn).code]
    exact (isRecord_of_initStart hstart).1
  have hrun : doInitValue st (.constructor type (some elts)) (some vn) =
      gather (doFieldInit st tn) (withFields st start elts) := by
    rw [doInitValue, Option.bind_some, hvn]
    dsimp only
    rw [if_pos hrec, hstart]
    refine doConstructorInit_eq st fun x hx => ?_
    obtain ⟨fd, -, hf⟩ := hin x hx
    rw [hf]
    rfl
  have hgiven : given st (.constructor type (some elts)) (some vn.id) =
      (withFields st start elts).flatMap fun x =>
        given st x.2 (x.1.bind (fieldPlace st type)) := by
    rw [given, hstart]
    exact givenFields_eq st start
  have hstep : ∀ x ∈ withFields st start elts, ∃ vn, x.1.bind (fieldPlace st type) = some vn.id ∧
      doFieldInit st tn x = doInitValue st x.2 (some vn) ∧ ReadRight st x.2 vn := by
    intro x hx
    obtain ⟨fd, hfd, hf⟩ := hin x hx
    obtain ⟨c, hfind, hplace, fd', hfd', hdecl, htype⟩ := hd.field htn hstart hfd
    refine ⟨c.var, ?_, ?_, hright x hx fd' hfd' (by rw [hdecl]; exact hf) _ htype⟩
    · rw [hf]
      exact hplace
    · unfold doFieldInit
      rw [hf, hfind]
      rfl
  obtain ⟨hvalues, hlands⟩ := gather_right (f := doFieldInit st tn) (l := withFields st start elts)
    (g := fun x => given st x.2 (x.1.bind (fieldPlace st type)))
    (S := fun x => Strays st x.2 (x.1.bind (fieldPlace st type)))
    (fun x hx => by
      obtain ⟨vn, hp, hdo, hright⟩ := hstep x hx
      rw [hdo, hp]
      exact hright.values)
    fun x hx => by
      obtain ⟨vn, hp, hdo, hright⟩ := hstep x hx
      rw [hdo, hp]
      exact hright.lands
  rw [← hgiven, ← hrun] at hvalues hlands
  refine ⟨hvalues, hlands.trans ?_⟩
  constructor
  · intro h hs
    cases hs with
    | field hstart' hmem hs =>
      rw [hstart] at hstart'
      cases hstart'
      exact h _ hmem hs
    | outside hstart' | element hstart' =>
      rw [hstart] at hstart'
      cases hstart'
    | inner hu => cases hu
  · exact fun h x hx hs => h (.field hstart hx hs)

/-- A constructor that is read as an array, for a variable of an array or of a pointer. -/
theorem readRight_array (hd : Detailed st) (h : Fits st (.constructor type (some elts)) type)
    (hstart : initStart st type = none) {t next : Nat} (ht : vn.type = some t)
    (hrec : ¬ isRecord (st.typeCode t)) (hnext : (st.nodes t).next = some next)
    (helem : TypeDetail.target st.toTypeGraph (st.tree type).type = some next)
    (hstructs : elemCode st type = .record → ∀ e ∈ elts, IsConstructor e.value)
    (hright : ∀ e ∈ elts, ∀ vn, vn.type = TypeDetail.target st.toTypeGraph (st.tree type).type →
      ReadRight st e.value vn) :
    ReadRight st (.constructor type (some elts)) vn := by
  have hcode : st.typeCode next = elemCode st type := (hd.node _ next helem).code
  by_cases hstruct : elemCode st type = .record
  · refine readRight_structs ht hrec hnext (hcode.trans hstruct) hstart hstruct fun e he => ?_
    exact ⟨hstructs hstruct e he, hright e he _ helem.symm⟩
  · have hflat : Flat st vn := ⟨t, next, ht, hrec, hnext, by rw [hcode]; exact hstruct⟩
    exact readRight_flat h hflat hstart hstruct

theorem initStart_eq_none (h : isRecord (st.tree type).code = false) :
    initStart st type = none := by
  unfold initStart
  cases hc : (st.tree type).code <;> rw [hc] at h <;> first | rfl | cases h

/-- **An initialiser that fits the type of its variable is read right.** -/
theorem Fits.readRight (hd : Detailed st) (t : InitTree) : ∀ type vn, Fits st t type →
    vn.type = TypeDetail.target st.toTypeGraph type → ReadRight st t vn := by
  induction t using InitTree.induction with
  | h t ih =>
    intro type vn h hvn
    have hfits := h
    cases h with
    | leaf h => exact h.readRight vn
    | @empty ctype =>
      refine ⟨⟨[], rfl, rfl⟩, iff_of_true rfl fun hs => ?_⟩
      cases hs with
      | inner hu => cases hu
    | cast h => exact (ih _ (sizeOf_inner_lt rfl) type vn h hvn).inner rfl
    | @record _ elts start htn hstart hin hfields =>
      obtain ⟨tn, htn⟩ := Option.isSome_iff_exists.mp htn
      refine readRight_record hd htn (hvn.trans htn) hstart hin fun x hx fd hfd hf vn hvn => ?_
      obtain ⟨e, he, hval⟩ := mem_withFields st hx
      exact ih x.2 (hval ▸ sizeOf_value_lt he) fd.type vn (hfields x hx fd hfd hf) hvn
    | @array _ elts htn hcode helem hstructs helts =>
      obtain ⟨tn, htn⟩ := Option.isSome_iff_exists.mp htn
      obtain ⟨next, helem⟩ := Option.isSome_iff_exists.mp helem
      have hnode := hd.node type tn htn
      have hrec : isRecord (st.tree type).code = false := by
        obtain hcode | hcode := hcode <;> rw [hcode] <;> rfl
      have hnext : TypeDetail.nextOf st.toTypeGraph type =
          TypeDetail.target st.toTypeGraph (st.tree type).type := by
        unfold TypeDetail.nextOf
        obtain hcode | hcode := hcode <;> rw [hcode]
      refine readRight_array hd hfits (initStart_eq_none hrec) (hvn.trans htn) ?_
        (hnode.next.trans (hnext.trans helem)) helem hstructs fun e he vn hvn => ?_
      · rw [hnode.code, hrec]
        exact Bool.false_ne_true
      · exact ih e.value (sizeOf_value_lt he) _ vn (helts e he) hvn
    | @literal _ ltype atype addr elts htn hcode hltype hsame h =>
      obtain ⟨tn, htn⟩ := Option.isSome_iff_exists.mp htn
      have hnode := hd.node type tn htn
      have hlstart : initStart st ltype = none := initStart_eq_none (by rw [hltype]; rfl)
      have hinner := h
      cases h with
      | leaf h => cases h
      | record _ hstart =>
        rw [hlstart] at hstart
        cases hstart
      | array _ _ helem hstructs helts =>
        obtain ⟨next, helem⟩ := Option.isSome_iff_exists.mp helem
        have hnext : TypeDetail.nextOf st.toTypeGraph type = some next := by
          unfold TypeDetail.nextOf
          rw [hcode]
          exact hsame.trans helem
        refine ReadRight.inner rfl (readRight_array hd hinner hlstart (hvn.trans htn) ?_
          (hnode.next.trans hnext) helem hstructs fun e he vn hvn => ?_)
        · rw [hnode.code, hcode]
          exact Bool.false_ne_true
        · refine ih e.value ?_ _ vn (helts e he) hvn
          exact Nat.lt_trans (sizeOf_value_lt he) (sizeOf_inner_lt rfl)

/-- Phase 3 leaves such type nodes, where the types of each node agree. -/
theorem nodeFits_of_typesRight {types : Finset Nat} {roots : List Nat}
    (h : TypesRight st.toTypeGraph types roots st.nodes)
    (hagree : ∀ n ∈ types, ∀ m ∈ types, ∀ t, TypeDetail.target st.toTypeGraph n = some t →
      TypeDetail.target st.toTypeGraph m = some t → Agree st.toTypeGraph n m) {root : Nat}
    (hroot : root ∈ roots)
    (hreach : Relation.ReflTransGen (PartOf st.toTypeGraph) root type)
    (htn : TypeDetail.target st.toTypeGraph type = some tn)
    (hcode : st.typeCode tn = (st.tree type).code)
    (hstands : ∀ (i : Nat) (fd : TypeDetail.FieldDecl) (decl : Nat) (name : Option Name)
      (t : Option Nat),
      (st.tree type).fields[i]? = some fd → (st.nodes tn).children[i]? = some (.field decl name t) →
        StandsFor st.toFieldGraph decl fd.decl) : NodeFits st type tn :=
  have hevery := h.every hagree root hroot type hreach tn htn
  ⟨hcode, hevery.2.1, hevery.2.2, hstands⟩

/-- **The address of a record literal** is no initialiser that fits: the values of the fields are
    lost, as they are taken for structures. -/
theorem recordLiteral_lost {ctype atype addr t next : Nat} (ht : vn.type = some t)
    (hrec : ¬ isRecord (st.typeCode t)) (hnext : (st.nodes t).next = some next)
    (hstruct : st.typeCode next = .record) (helts : ∀ e ∈ elts, Leaf st e.value ∧
      ∃ vtype, e.value.type = some vtype ∧ initStart st vtype = none) :
    doInitValue st (.addrExpr atype addr (.compoundLiteral (some (.constructor ctype (some elts)))))
      (some vn) = some [] := by
  have hloop : doStructInits st elts next = some [] := by
    induction elts with
    | nil => rfl
    | cons e elts ih =>
      obtain ⟨hleaf, vtype, hvtype, hno⟩ := helts e List.mem_cons_self
      have hvalue : doStructInit st e.value next = some [] := by
        generalize e.value = w at hleaf hvtype
        cases hleaf with
        | null => cases hvtype
        | _ =>
          cases hvtype
          simp [doStructInit, InitTree.type, hno]
      rw [doStructInits, hvalue, ih fun e' he' => helts e' (List.mem_cons_of_mem e he')]
      rfl
  rw [doInitValue_inner rfl, doInitValue, Option.bind_some, ht]
  dsimp only
  rw [if_neg hrec, hnext]
  dsimp only
  rw [if_neg (not_not.mpr hstruct), hloop]

/-! ## All initialisers -/

variable (st)

/-- What the initialisers of some variables give. -/
def givenAll (inits : List (VarNode × InitTree)) : List (Option Nat × Value) :=
  inits.flatMap fun x => given st x.2 (some x.1.id)

/-- The values of one `var_node`. -/
def givenTo (inits : List (VarNode × InitTree)) (vn : Nat) : List (ValueFlag × Nat) :=
  ((givenAll st inits).filter fun x => x.1 = some vn).map fun x => (x.2.1, x.2.2.1)

/-- All calls of `add_possible`. -/
def initCalls (inits : List (VarNode × InitTree)) : Option (List PossibleCall) :=
  gather (fun x => doInitValue st x.2 (some x.1)) inits

theorem doPhase4Gvars_run (inits : List (VarNode × InitTree)) (s : TraceState) :
    doPhase4Gvars st inits s = (initCalls st inits).bind fun calls =>
      (addPossibles s calls).map ((), ·) := by
  induction inits generalizing s with
  | nil => rfl
  | cons x inits ih =>
    have hcons : doPhase4Gvars st (x :: inits) s =
        (doPhase4Gvar st x.1 x.2 s).bind fun out => doPhase4Gvars st inits out.2 := rfl
    rw [hcons]
    unfold doPhase4Gvar initCalls
    simp only [gather, Option.bind_assoc]
    cases hcalls : doInitValue st x.2 (some x.1) with
    | none => rfl
    | some calls =>
      simp only [Option.bind_some, Option.bind_map]
      have happ : ∀ rest, addPossibles s (calls ++ rest) =
          (addPossibles s calls).bind fun s' => addPossibles s' rest := by
        intro rest
        unfold addPossibles
        rw [List.foldlM_append]
        rfl
      obtain ⟨s', hs', -⟩ := addPossibles_list s calls
      simp only [hs', Option.bind_some, ih s', initCalls, Function.comp_def, happ]

/-- Each initialiser fits a type of its variable. -/
def FitAll (inits : List (VarNode × InitTree)) : Prop :=
  ∀ x ∈ inits, ∃ type, x.1.type = TypeDetail.target st.toTypeGraph type ∧ Fits st x.2 type

variable {inits : List (VarNode × InitTree)}

/-- The calls are right exactly if no value strays. -/
theorem initCalls_exact (hd : Detailed st) (hfits : FitAll st inits) :
    (initCalls st inits).map (List.map located) = some (givenAll st inits) ↔
      ∀ x ∈ inits, ¬ Strays st x.2 (some x.1.id) := by
  have hright : ∀ x ∈ inits, ReadRight st x.2 x.1 := by
    intro x hx
    obtain ⟨type, htype, h⟩ := hfits x hx
    exact Fits.readRight hd x.2 type x.1 h htype
  exact (gather_right (fun x hx => (hright x hx).values) fun x hx => (hright x hx).lands).2

/-- What the calls on one `var_node` add. -/
theorem initCalls_filter {inits : List (VarNode × InitTree)} {calls : List PossibleCall}
    (h : calls.map located = givenAll st inits) (vn : Nat) :
    (calls.filter (·.vn = vn)).map PossibleCall.pair = givenTo st inits vn := by
  unfold givenTo
  rw [← h, List.filter_map, List.map_map]
  simp [Function.comp_def, located, PossibleCall.pair]

theorem addPossibles_fns {s s' : TraceState} {calls : List PossibleCall}
    (h : addPossibles s calls = some s') : s'.fns = s.fns := by
  induction calls generalizing s with
  | nil =>
    cases h
    rfl
  | cons c calls ih =>
    unfold addPossibles at h
    rw [List.foldlM_cons, addPossible_run] at h
    have hrest : addPossibles (s.added c) calls = some s' := h
    rw [ih hrest]
    rfl

/-- After the pass every `var_node` has what the initialisers give to it. -/
theorem doPhase4Gvars_possible (hd : Detailed st) (hfits : FitAll st inits)
    (h : ∀ x ∈ inits, ¬ Strays st x.2 (some x.1.id)) (fns : FuncNodes) :
    ∃ s', doPhase4Gvars st inits ⟨fns, fun _ => []⟩ = some ((), s') ∧ s'.fns = fns ∧
      ∀ vn, OneKind (givenTo st inits vn) →
        FirstOnce (givenTo st inits vn) ((s'.possible vn).map PossibleList.pair) := by
  obtain ⟨calls, hcalls, hlocated⟩ :=
    Option.map_eq_some_iff.mp ((initCalls_exact st hd hfits).mpr h)
  obtain ⟨s', hs', hlists⟩ := addPossibles_list ⟨fns, fun _ => []⟩ calls
  refine ⟨s', ?_, addPossibles_fns hs', fun vn hone => ?_⟩
  · rw [doPhase4Gvars_run, hcalls, Option.bind_some, hs']
    rfl
  · rw [← initCalls_filter st hlocated] at hone ⊢
    rw [hlists vn]
    exact firstOnce_of_oneKind hone

/-- **For initialisers that fit, what is entered is what they give, at the `var_node` that it
    belongs to, exactly if no value strays.**  Then every `var_node` has its values once each, in the
    order in which they are given, as long as it is not given one number with two kinds. -/
theorem initials_exact (st : TraceStore) (hd : Detailed st) {inits : List (VarNode × InitTree)}
    (hfits : FitAll st inits) (fns : FuncNodes) :
    ((initCalls st inits).map (List.map located) = some (givenAll st inits) ↔
        ∀ x ∈ inits, ¬ Strays st x.2 (some x.1.id)) ∧
      ((∀ x ∈ inits, ¬ Strays st x.2 (some x.1.id)) →
        ∃ s', doPhase4Gvars st inits ⟨fns, fun _ => []⟩ = some ((), s') ∧ s'.fns = fns ∧
          ∀ vn, OneKind (givenTo st inits vn) →
            FirstOnce (givenTo st inits vn) ((s'.possible vn).map PossibleList.pair)) :=
  ⟨initCalls_exact st hd hfits, fun h => doPhase4Gvars_possible st hd hfits h fns⟩

/-! ## Structures in arrays -/

/-- `struct point { int x; int y[2]; }`, of which a macro makes the fields; `int [2]`, and
    `struct point [2]`, `struct point [1]` and `struct point [1][1]`. -/
def pointGraph : TypeGraph :=
  smallGraph
    [⟨.record, some 12, false, 0, none, 0, [],
        [⟨0, some (bytesOf "x"), 5⟩, ⟨1, some (bytesOf "y"), 1⟩], []⟩,
      ⟨.array, some 8, false, 0, some 1, 5, [], [], []⟩,
      ⟨.array, some 24, false, 0, some 1, 0, [], [], []⟩,
      ⟨.array, some 12, false, 0, some 0, 0, [], [], []⟩,
      ⟨.array, some 12, false, 0, some 0, 3, [], [], []⟩]
    (by simp)

/-- What holds of the five types and of an integer. -/
theorem pointGraph_all {P : Nat → TypeDetail.TypeTree → Prop} (h : ∀ n < 5, P n (pointGraph.tree n))
    (hint : ∀ n, P (n + 5) intTree) (n : Nat) : P n (pointGraph.tree n) := by
  by_cases hn : n < 5
  · exact h n hn
  · obtain ⟨m, rfl⟩ := Nat.exists_eq_add_of_le' (Nat.le_of_not_lt hn)
    exact hint m

theorem pointGraph_record (n : Nat) : isRecord (pointGraph.tree n).code = true → n = 0 :=
  pointGraph_all (P := fun n tr => isRecord tr.code = true → n = 0) (by decide)
    (fun _ h => by cases h) n

theorem pointGraph_children {tn : Nat} {c : TypeChild} (h : c ∈ childrenOf pointGraph tn) :
    tn = 0 := by
  match tn with
  | 0 => rfl
  | 1 | 2 | 3 | 4 => cases h
  | n + 5 => cases h

def pointDepth (n : Nat) : Nat := if n = 4 then 2 else if n = 1 ∨ n = 2 ∨ n = 3 then 1 else 0

def pointFields : FieldGraph where
  toTypeGraph := pointGraph
  nodes n := ⟨true, false, false, 0, 0, TypeDetail.nextOf pointGraph n, childrenOf pointGraph n⟩
  typeCode n := (pointGraph.tree n).code
  fieldVn decl := 10 + decl
  field
    | 0 => ⟨⟨none, 3, 1⟩, some (bytesOf "x"), some 0, 5, some 1, ⟨none, none, 32⟩⟩
    | _ => ⟨⟨none, 3, 1⟩, some (bytesOf "y"), some 0, 1, none, ⟨some 4, none, 64⟩⟩
  rank _ := 0
  rank_child := by
    intro tn decl name t h hne hrec
    obtain rfl := pointGraph_record t hrec
    exact absurd (pointGraph_children h).symm hne
  rank_next := fun tn t h => absurd h (pointGraph_all (P := fun _ tr => tr.code ≠ .pointer)
    (by decide) (fun _ h => by cases h) tn)
  depth := pointDepth
  depth_elem :=
    pointGraph_all (P := fun n tr => tr.code = .array → pointDepth tr.type < pointDepth n)
    (by decide) fun _ h => by cases h

def pointStore : TraceStore where
  toFuncStore := declStore
  toFieldGraph := pointFields
  body _ := ⟨[], [], [], [], []⟩
  gimple _ := .nop
  ssa _ := ⟨none, none⟩
  varDecl _ := ⟨none, false, false, false, false, ⟨none, 0, 0⟩⟩
  varNode _ := 0
  componentRef _ := ⟨.other, none, false⟩

/-- `struct point a[2] = { { 1, { 2, 3 } }, { 4 } };` -/
def pointsInit : VarNode × InitTree :=
  (⟨100, some 2⟩, .constructor 2 (some
    [⟨none, .constructor 0 (some [⟨some 0, .integerCst 5 1⟩,
      ⟨some 1, .constructor 1 (some [⟨none, .integerCst 5 2⟩, ⟨none, .integerCst 5 3⟩])⟩])⟩,
    ⟨none, .constructor 0 (some [⟨some 0, .integerCst 5 4⟩])⟩]))

/-- `struct point b[1][1] = { { { 5 } } };` -/
def nestedInit : VarNode × InitTree :=
  (⟨101, some 4⟩, .constructor 4 (some [⟨none, .constructor 3 (some
    [⟨none, .constructor 0 (some [⟨some 0, .integerCst 5 5⟩])⟩])⟩]))

theorem point_detailed : Detailed pointStore where
  node type tn htn := by
    obtain rfl : type = tn := by
      unfold TypeDetail.target at htn
      split at htn
      · exact Option.some.inj htn
      · cases htn
    refine ⟨rfl, rfl, rfl, fun i fd decl name t hfd hchild => ?_⟩
    obtain rfl := pointGraph_children (List.mem_of_getElem? hchild)
    have hdecl : decl = fd.decl := by
      have hmap : (childrenOf pointGraph 0)[i]? = ((pointGraph.tree 0).fields.map fun f =>
          TypeChild.field f.decl f.name (TypeDetail.target pointGraph f.type))[i]? := rfl
      have hchild' : (childrenOf pointGraph 0)[i]? = some (.field decl name t) := hchild
      have hfd' : (pointGraph.tree 0).fields[i]? = some fd := hfd
      rw [hmap, List.getElem?_map, hfd', Option.map_some, Option.some.injEq] at hchild'
      exact (TypeChild.field.inj hchild').1.symm
    rw [hdecl]
    exact ⟨rfl, rfl⟩
  toldApart tn hrec := by
    obtain rfl := pointGraph_record tn hrec
    refine .names (i := 0) (a := 0) (b := 1) rfl rfl rfl (fun f hf => ?_) (by decide)
    obtain rfl | hf := List.mem_cons.mp hf
    · exact ⟨bytesOf "x", rfl, by unfold TargetField.Copied; decide⟩
    · obtain rfl := List.mem_singleton.mp hf
      exact ⟨bytesOf "y", rfl, by unfold TargetField.Copied; decide⟩

/-- A constructor of `struct point`. -/
theorem point_fits {elts : List (ConstructorElt InitTree)}
    (hin : ∀ x ∈ withFields pointStore (some 0) elts,
      x.1 = some 0 ∧ Fits pointStore x.2 5 ∨ x.1 = some 1 ∧ Fits pointStore x.2 1) :
    Fits pointStore (.constructor 0 (some elts)) 0 := by
  refine .record rfl rfl (fun x hx => ?_) fun x hx fd hfd hf => ?_
  · obtain ⟨hf, -⟩ | ⟨hf, -⟩ := hin x hx
    · exact ⟨_, List.mem_cons_self, hf⟩
    · exact ⟨_, List.mem_cons_of_mem _ List.mem_cons_self, hf⟩
  · have hmem : fd = ⟨0, some (bytesOf "x"), 5⟩ ∨ fd = ⟨1, some (bytesOf "y"), 1⟩ := by
      simpa [pointStore, pointFields, pointGraph, smallGraph] using hfd
    obtain ⟨hf', h⟩ | ⟨hf', h⟩ := hin x hx <;> obtain rfl | rfl := hmem <;>
      first | exact h | (rw [hf] at hf'; cases hf')

theorem points_fit : Fits pointStore pointsInit.2 2 := by
  refine .array rfl (.inl rfl) rfl (fun _ e he => ?_) fun e he => ?_
  · obtain rfl | he := List.mem_cons.mp he
    · exact ⟨_, _, rfl⟩
    · obtain rfl := List.mem_singleton.mp he
      exact ⟨_, _, rfl⟩
  · obtain rfl | he := List.mem_cons.mp he
    · refine point_fits fun x hx => ?_
      obtain rfl | hx := List.mem_cons.mp hx
      · exact .inl ⟨rfl, .leaf (.integerCst 5 1)⟩
      · obtain rfl := List.mem_singleton.mp hx
        refine .inr ⟨rfl, .array rfl (.inl rfl) rfl (fun h => by cases h) fun e he => ?_⟩
        obtain rfl | he := List.mem_cons.mp he
        · exact .leaf (.integerCst 5 2)
        · obtain rfl := List.mem_singleton.mp he
          exact .leaf (.integerCst 5 3)
    · obtain rfl := List.mem_singleton.mp he
      refine point_fits fun x hx => ?_
      obtain rfl := List.mem_singleton.mp hx
      exact .inl ⟨rfl, .leaf (.integerCst 5 4)⟩

theorem nested_fits : Fits pointStore nestedInit.2 4 := by
  refine .array rfl (.inl rfl) rfl (fun h => by cases h) fun e he => ?_
  obtain rfl := List.mem_singleton.mp he
  refine .array rfl (.inl rfl) rfl (fun _ e he => ?_) fun e he => ?_
  · obtain rfl := List.mem_singleton.mp he
    exact ⟨_, _, rfl⟩
  · obtain rfl := List.mem_singleton.mp he
    refine point_fits fun x hx => ?_
    obtain rfl := List.mem_singleton.mp hx
    exact .inl ⟨rfl, .leaf (.integerCst 5 5)⟩

/-- The elements of `a` are read as structures, and those of `y` belong to `y`. -/
theorem points_not_stray : ¬ Strays pointStore pointsInit.2 (some 100) := by
  intro h
  cases h with
  | outside _ hcode => exact hcode rfl
  | field hstart => cases hstart
  | inner hu => cases hu
  | element _ _ he h =>
    obtain rfl | he := List.mem_cons.mp he
    · cases h with
      | outside hstart | element hstart => cases hstart
      | inner hu => cases hu
      | field hstart hmem h =>
        cases hstart
        obtain heq | hmem := List.mem_cons.mp hmem
        · cases heq
          exact (Leaf.integerCst 5 1).not_strays h
        · cases List.mem_singleton.mp hmem
          cases h with
          | inner hu => cases hu
          | field hstart => cases hstart
          | element _ hcode => cases hcode
          | outside _ _ hx hp =>
            have hplaces : ∀ x ∈ given pointStore (.constructor 1 (some
                [⟨none, .integerCst 5 2⟩, ⟨none, .integerCst 5 3⟩])) (some 11),
                x.1 = some 11 := by decide
            exact hp (hplaces _ hx)
    · obtain rfl := List.mem_singleton.mp he
      cases h with
      | outside hstart | element hstart => cases hstart
      | inner hu => cases hu
      | field hstart hmem h =>
        cases hstart
        cases List.mem_singleton.mp hmem
        exact (Leaf.integerCst 5 4).not_strays h

/-- The value in `b` belongs to `x`. -/
theorem nested_strays : Strays pointStore nestedInit.2 (some 101) :=
  .outside (x := (some 10, .intCst, 5, 0)) rfl (by decide) (by decide) (by decide)

/-- The values of `a` are entered at `x` and `y`, that of `b` is not entered at `x`. -/
theorem points_entered :
    (initCalls pointStore [pointsInit]).map (List.map located) =
      some [(some 10, .intCst, 1, 0), (some 11, .intCst, 2, 0), (some 11, .intCst, 3, 0),
        (some 10, .intCst, 4, 0)] ∧
    (initCalls pointStore [nestedInit]).map (List.map located) ≠
      some [(some 10, .intCst, 5, 0)] := by
  have hpoints : FitAll pointStore [pointsInit] := by
    intro x hx
    obtain rfl := List.mem_singleton.mp hx
    exact ⟨2, rfl, points_fit⟩
  have hnested : FitAll pointStore [nestedInit] := by
    intro x hx
    obtain rfl := List.mem_singleton.mp hx
    exact ⟨4, rfl, nested_fits⟩
  constructor
  · refine ((initials_exact pointStore point_detailed hpoints pointStore.noCalls).1.mpr ?_).trans ?_
    · intro x hx
      obtain rfl := List.mem_singleton.mp hx
      exact points_not_stray
    · decide
  · intro h
    have hgiven : givenAll pointStore [nestedInit] = [(some 10, .intCst, 5, 0)] := by decide
    rw [← hgiven] at h
    exact (initials_exact pointStore point_detailed hnested pointStore.noCalls).1.mp h _
      (List.mem_singleton.mpr rfl) nested_strays

end Srcinv.Analysis.GvarInit
