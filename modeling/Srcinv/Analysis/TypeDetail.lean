import Mathlib.Algebra.Group.Nat.Defs
import Mathlib.Data.Finset.Card
import Mathlib.Data.Finset.Image
import Mathlib.Logic.Function.Basic
import Mathlib.Logic.Relation
import Srcinv.Analysis.GccNode
import Srcinv.Lib.Run

/-!
# The details of types (`__get_type_detail` in `analysis/gcc/c.cc`)

`getbase` has given every type of the compiler a type node; types that several files define share
one.  The pass fills a type node in from one type: it marks the node, calls itself on the types that
this one is made of, and enters what the calls return.  Types may lead back to themselves; a node
that is marked is returned as it is.

* `Pass` — what a call does to the type nodes: those that were marked stay, those that it marks are
  filled in from some type, whose own parts are marked too.
* `typeDetail_pass`, `typeDetail_total` — a call does that, and comes back within as many nested
  calls as there are types.
* `typeDetails_right` — after any calls every type node that a root leads to is filled in.

What the compiler knows of a type comes in a `TypeTree`, `find_type_node` as a function of it.
-/

namespace Srcinv.Analysis.TypeDetail

open Srcinv.Lib

/-! ## Types and type nodes -/

/-- `TREE_CODE` of a type.  Before gcc 9 `POINTER_BOUNDS_TYPE` is handled like `VOID_TYPE`. -/
inductive TypeCode where
  | offset | nullptr | fixedPoint | qualUnion | method | lang | other
  | reference | boolean | void | enumeral | integer | real | pointer | complex | vector | array
  | record | union | function
  deriving DecidableEq, Repr

/-- The codes that the pass has a case for. -/
def TypeCode.handled : TypeCode → Bool
  | .offset | .nullptr | .fixedPoint | .qualUnion | .method | .lang | .other => false
  | _ => true

/-- A `FIELD_DECL`: its address, `DECL_NAME` and `TREE_TYPE`. -/
structure FieldDecl where
  decl : Nat
  name : Option Name
  type : Nat
  deriving DecidableEq, Repr

/-- An entry of `TYPE_VALUES`. -/
structure Enumerator where
  node : Nat
  name : Name
  value : Nat
  deriving DecidableEq, Repr

/-- An entry of `TYPE_ARG_TYPES`: its address, its type, and whether that has `VOIDmode`. -/
structure ArgType where
  node : Nat
  type : Nat
  voidMode : Bool
  deriving DecidableEq, Repr

/-- What the pass reads of a type.  `TYPE_SIZE` and `TYPE_SIZE_UNIT` are set together. -/
structure TypeTree where
  code : TypeCode
  sizeUnit : Option Nat
  isUnsigned : Bool
  precision : Nat
  maxValue : Option Int
  type : Nat
  values : List Enumerator
  fields : List FieldDecl
  args : List ArgType

/-- An entry of `children`: the `var_list` of an enumerator or a field, or the type node that stands
    for the end of the arguments. -/
inductive TypeChild where
  | enumerator (node : Nat) (name : Name) (value : Nat)
  | field (decl : Nat) (name : Option Name) (type : Option Nat)
  | vaList (node : Nat)
  deriving DecidableEq, Repr

/-- `struct type_node`, as far as the pass writes it. -/
structure TypeNode where
  isSet : Bool
  isUnsigned : Bool
  isVariant : Bool
  baselen : Int
  ofsize : Nat
  next : Option Nat
  children : List TypeChild
  deriving DecidableEq, Repr

/-- `type_node_new`. -/
def TypeNode.new : TypeNode := ⟨false, false, false, 0, 0, none, []⟩

/-- The types of the compiler with `find_type_node`.  Enumerators have an identifier, integer and
    real types a size. -/
structure TypeGraph where
  tree : Nat → TypeTree
  findTypeNode : Nat → Option Nat
  named : ∀ n, ∀ e ∈ (tree n).values, e.name ≠ []
  sized : ∀ n, (tree n).code = .integer ∨ (tree n).code = .real → (tree n).sizeUnit ≠ none

abbrev TypeNodes := Nat → TypeNode

/-! ## `__get_type_detail` -/

/-- `ofsize` is set when the type is complete. -/
def TypeTree.setOfsize (tr : TypeTree) (tn : TypeNode) : TypeNode :=
  match tr.sizeUnit with
  | none => tn
  | some size => { tn with ofsize := size }

/-- The loop over `TYPE_VALUES`; `none` is the `BUG_ON` of an enumerator without a name. -/
def addValues (tn : TypeNode) (values : List Enumerator) : Option TypeNode :=
  values.foldlM (fun tn e =>
    if e.name = [] then none
    else some { tn with children := tn.children ++ [.enumerator e.node e.name e.value] }) tn

/-- What a type node gets before the pass calls itself.  `none` is a `BUG_ON` or a null
    `TYPE_SIZE_UNIT`. -/
def TypeTree.setOwn (tr : TypeTree) (tn : TypeNode) : Option TypeNode :=
  let tn := { tn with isSet := true }
  match tr.code with
  | .enumeral =>
    addValues
      (tr.setOfsize { tn with isUnsigned := tr.isUnsigned, baselen := tr.precision }) tr.values
  | .integer =>
    tr.sizeUnit.map fun size =>
      { tn with isUnsigned := tr.isUnsigned, baselen := tr.precision, ofsize := size }
  | .real => tr.sizeUnit.map fun size => { tn with baselen := tr.precision, ofsize := size }
  | .array =>
    match tr.maxValue with
    | none => some (tr.setOfsize tn)
    | some max => some (tr.setOfsize { tn with baselen := (1 + max).bmod (2 ^ 64) })
  | _ => some (tr.setOfsize tn)

/-- An assignment to one type node. -/
def TypeNodes.set (st : TypeNodes) (t : Nat) (f : TypeNode → TypeNode) : TypeNodes :=
  Function.update st t (f (st t))

section Detail

variable (G : TypeGraph) (rec : TypeNodes → Nat → Option (TypeNodes × Option Nat)) (t : Nat)

/-- The loop over `TYPE_FIELDS`. -/
def addFields : TypeNodes → List FieldDecl → Option TypeNodes
  | st, [] => some st
  | st, f :: fs =>
    let st :=
      if fs = [] ∧ (G.tree f.type).code = .array then
        st.set t fun tn => { tn with isVariant := true }
      else st
    match rec st f.type with
    | none => none
    | some (st, type) =>
      addFields (st.set t fun tn =>
        { tn with children := tn.children ++ [.field f.decl f.name type] }) fs

/-- The loop over `TYPE_ARG_TYPES`. -/
def addArgs : TypeNodes → List ArgType → Option TypeNodes
  | st, [] => some st
  | st, a :: as =>
    if as = [] ∧ a.voidMode then
      addArgs (st.set t fun tn => { tn with children := tn.children ++ [.vaList a.node] }) as
    else
      match rec st a.type with
      | none => none
      | some (st, _) => addArgs st as

end Detail

/-- `__get_type_detail`: the type nodes, and what `*next` or `*base` gets. -/
def typeDetail (G : TypeGraph) : Nat → TypeNodes → Nat → Option (TypeNodes × Option Nat)
  | 0, _, _ => none
  | fuel + 1, st, node =>
    let tr := G.tree node
    if tr.code.handled then
      match G.findTypeNode node with
      | none => some (st, none)
      | some t =>
        if (st t).isSet then some (st, some t)
        else
          match tr.setOwn (st t) with
          | none => none
          | some tn =>
            let st := Function.update st t tn
            match tr.code with
            | .reference | .pointer | .vector | .array =>
              (typeDetail G fuel st tr.type).map fun (st, type) =>
                (st.set t fun tn => { tn with next := type }, some t)
            | .complex => (typeDetail G fuel st tr.type).map fun (st, _) => (st, some t)
            | .record | .union =>
              (addFields G (typeDetail G fuel) t st tr.fields).map fun st => (st, some t)
            | .function =>
              (typeDetail G fuel st tr.type).bind fun (st, _) =>
                (addArgs (typeDetail G fuel) t st tr.args).map fun st => (st, some t)
            | _ => some (st, some t)
    -- a code without a case: "miss"
    else some (st, none)

/-- `_get_type_detail` of a type node with its type; `none` also for the `BUG` when another type
    node comes back. -/
def getTypeDetail (G : TypeGraph) (fuel : Nat) (st : TypeNodes) (tn node : Nat) :
    Option TypeNodes :=
  (typeDetail G fuel st node).bind fun (st, type) => if type = some tn then some st else none

/-- Calls on several types. -/
def typeDetails (G : TypeGraph) (fuel : Nat) (st : TypeNodes) (roots : List Nat) :
    Option TypeNodes :=
  roots.foldlM (fun st root => (typeDetail G fuel st root).map Prod.fst) st

/-! ## Steps -/

/-- What the pass does for a marked type node: an assignment, or a call for a type and an assignment
    of what comes back. -/
inductive Step where
  | own (f : TypeNode → TypeNode)
  | visit (n : Nat) (f : Option Nat → TypeNode → TypeNode)

/-- The steps one after the other. -/
def runSteps (rec : TypeNodes → Nat → Option (TypeNodes × Option Nat)) (t : Nat) :
    TypeNodes → List Step → Option TypeNodes
  | st, [] => some st
  | st, .own f :: ss => runSteps rec t (st.set t f) ss
  | st, .visit n f :: ss =>
    match rec st n with
    | none => none
    | some (st, r) => runSteps rec t (st.set t (f r)) ss

variable (G : TypeGraph)

def fieldSteps : List FieldDecl → List Step
  | [] => []
  | f :: fs =>
    .own (fun tn =>
      if fs = [] ∧ (G.tree f.type).code = .array then { tn with isVariant := true } else tn) ::
    .visit f.type (fun r tn =>
      { tn with children := tn.children ++ [.field f.decl f.name r] }) :: fieldSteps fs

def argSteps : List ArgType → List Step
  | [] => []
  | a :: as =>
    if as = [] ∧ a.voidMode then
      .own (fun tn => { tn with children := tn.children ++ [.vaList a.node] }) :: argSteps as
    else .visit a.type (fun _ tn => tn) :: argSteps as

/-- The steps for a type. -/
def steps (node : Nat) : List Step :=
  let tr := G.tree node
  match tr.code with
  | .reference | .pointer | .vector | .array =>
    [.visit tr.type fun r tn => { tn with next := r }]
  | .complex => [.visit tr.type fun _ tn => tn]
  | .record | .union => fieldSteps G tr.fields
  | .function => .visit tr.type (fun _ tn => tn) :: argSteps tr.args
  | _ => []

theorem set_id (st : TypeNodes) (t : Nat) : (st.set t fun tn => tn) = st :=
  Function.update_eq_self t st

theorem addFields_steps (rec : TypeNodes → Nat → Option (TypeNodes × Option Nat)) (t : Nat) :
    ∀ (fs : List FieldDecl) (st : TypeNodes),
      addFields G rec t st fs = runSteps rec t st (fieldSteps G fs)
  | [], _ => rfl
  | f :: fs, st => by
    simp only [addFields, fieldSteps, runSteps]
    by_cases h : fs = [] ∧ (G.tree f.type).code = .array
    · simp only [if_pos h]
      cases rec (st.set t fun tn => { tn with isVariant := true }) f.type with
      | none => rfl
      | some r => exact addFields_steps rec t fs _
    · simp only [if_neg h, set_id]
      cases rec st f.type with
      | none => rfl
      | some r => exact addFields_steps rec t fs _

theorem addArgs_steps (rec : TypeNodes → Nat → Option (TypeNodes × Option Nat)) (t : Nat) :
    ∀ (as : List ArgType) (st : TypeNodes),
      addArgs rec t st as = runSteps rec t st (argSteps as)
  | [], _ => rfl
  | a :: as, st => by
    by_cases h : as = [] ∧ a.voidMode
    · rw [addArgs, if_pos h, argSteps, if_pos h, runSteps]
      exact addArgs_steps rec t as _
    · rw [addArgs, if_neg h, argSteps, if_neg h, runSteps]
      cases rec st a.type with
      | none => rfl
      | some r =>
        simp only [set_id]
        exact addArgs_steps rec t as _

/-- **A type node that is not marked** is marked, gets what is its own, and then the steps. -/
theorem typeDetail_steps {fuel : Nat} {st : TypeNodes} {node t : Nat}
    (hcode : (G.tree node).code.handled = true) (hfind : G.findTypeNode node = some t)
    (hset : (st t).isSet = false) :
    typeDetail G (fuel + 1) st node = ((G.tree node).setOwn (st t)).bind fun tn =>
      (runSteps (typeDetail G fuel) t (Function.update st t tn) (steps G node)).map
        fun st => (st, some t) := by
  rw [typeDetail]
  simp only [hcode, if_true, hfind, hset, Bool.false_eq_true, if_false]
  cases (G.tree node).setOwn (st t) with
  | none => rfl
  | some tn =>
    simp only [Option.bind_some, steps]
    have hone : ∀ f : Option Nat → TypeNode → TypeNode,
        ((typeDetail G fuel (Function.update st t tn) (G.tree node).type).map fun p =>
          (p.1.set t (f p.2), some t)) =
        (runSteps (typeDetail G fuel) t (Function.update st t tn)
          [.visit (G.tree node).type f]).map fun st => (st, some t) := by
      intro f
      rw [runSteps]
      cases typeDetail G fuel (Function.update st t tn) (G.tree node).type <;> rfl
    cases hc : (G.tree node).code with
    | reference | pointer | vector | array => exact hone fun r tn => { tn with next := r }
    | complex =>
      rw [← hone]
      simp only [set_id]
    | record | union => rw [addFields_steps]
    | function =>
      simp only [runSteps]
      cases typeDetail G fuel (Function.update st t tn) (G.tree node).type with
      | none => rfl
      | some r =>
        simp only [Option.bind_some, set_id]
        rw [addArgs_steps]
    | _ => rfl

/-! ## What a call does -/

/-- The type node of a type that the pass has a case for. -/
def target (node : Nat) : Option Nat :=
  if (G.tree node).code.handled then G.findTypeNode node else none

/-- What a step makes of the type node. -/
def Step.apply : Step → TypeNode → TypeNode
  | .own f => f
  | .visit n f => f (target G n)

/-- The type that a step calls for. -/
def Step.visits : Step → Option Nat
  | .own _ => none
  | .visit n _ => some n

/-- The types that a type is made of. -/
def parts (node : Nat) : List Nat := (steps G node).filterMap Step.visits

/-- A step never takes the mark away. -/
def Step.Keeps (s : Step) : Prop := ∀ tn, tn.isSet = true → (s.apply G tn).isSet = true

/-- **A type node filled in** from a type. -/
def filledIn (node : Nat) (tn : TypeNode) : Option TypeNode :=
  ((G.tree node).setOwn tn).map fun tn => (steps G node).foldl (fun tn s => s.apply G tn) tn

variable {G} {U : Nat → Prop}

/-- **What a call does** to the type nodes, apart from one that is being filled in: those that were
    marked stay as they are, and those that it marks are filled in from a type of `U`, with its
    parts marked. -/
structure Pass (G : TypeGraph) (U : Nat → Prop) (x : Option Nat) (st st' : TypeNodes) : Prop where
  grow : ∀ t, (st t).isSet = true → (st' t).isSet = true
  keep : ∀ t, some t ≠ x → (st t).isSet = true → st' t = st t
  rest : ∀ t, some t ≠ x → (st' t).isSet = false → st' t = st t
  made : ∀ t, some t ≠ x → (st t).isSet = false → (st' t).isSet = true →
    ∃ m, U m ∧ target G m = some t ∧ filledIn G m (st t) = some (st' t) ∧
      ∀ k ∈ parts G m, ∀ u, target G k = some u → (st' u).isSet = true

theorem Pass.refl (x : Option Nat) (st : TypeNodes) : Pass G U x st st :=
  ⟨fun _ h => h, fun _ _ _ => rfl, fun _ _ _ => rfl, fun _ _ h h' => by rw [h] at h'; cases h'⟩

theorem Pass.trans {x : Option Nat} {st st' st'' : TypeNodes} (h : Pass G U x st st')
    (h' : Pass G U x st' st'') : Pass G U x st st'' where
  grow t ht := h'.grow t (h.grow t ht)
  keep t hx ht := (h'.keep t hx (h.grow t ht)).trans (h.keep t hx ht)
  rest t hx ht := by
    have hmid : (st' t).isSet = false := by
      cases hc : (st' t).isSet with
      | false => rfl
      | true => rw [h'.grow t hc] at ht; cases ht
    exact (h'.rest t hx ht).trans (h.rest t hx hmid)
  made t hx ht ht'' := by
    cases hc : (st' t).isSet with
    | true =>
      obtain ⟨m, hm, htarget, hfill, hparts⟩ := h.made t hx ht hc
      refine ⟨m, hm, htarget, ?_, fun k hk u hu => h'.grow u (hparts k hk u hu)⟩
      rw [h'.keep t hx hc]
      exact hfill
    | false =>
      obtain ⟨m, hm, htarget, hfill, hparts⟩ := h'.made t hx hc ht''
      refine ⟨m, hm, htarget, ?_, hparts⟩
      rw [← h.rest t hx hc]
      exact hfill

theorem Pass.but {st st' : TypeNodes} (h : Pass G U none st st') (x : Option Nat) :
    Pass G U x st st' :=
  ⟨h.grow, fun t _ => h.keep t (by simp), fun t _ => h.rest t (by simp),
    fun t _ => h.made t (by simp)⟩

/-- An assignment to the type node that is being filled in. -/
theorem Pass.own {t : Nat} {st : TypeNodes} {f : TypeNode → TypeNode}
    (hf : ∀ tn, tn.isSet = true → (f tn).isSet = true) : Pass G U (some t) st (st.set t f) := by
  have hne : ∀ u, some u ≠ some t → st.set t f u = st u := fun u hu =>
    Function.update_of_ne (fun h => hu (congrArg some h)) _ _
  refine ⟨fun u hu => ?_, fun u hu _ => hne u hu, fun u hu _ => hne u hu, fun u hu h h' => ?_⟩
  · by_cases hut : u = t
    · subst hut
      rw [TypeNodes.set, Function.update_self]
      exact hf _ hu
    · rw [hne u (fun h => hut (Option.some.inj h))]
      exact hu
  · rw [hne u hu, h] at h'
    cases h'

/-- What is known of the calls that the pass makes. -/
def RecPass (G : TypeGraph) (U : Nat → Prop)
    (rec : TypeNodes → Nat → Option (TypeNodes × Option Nat)) : Prop :=
  ∀ st n st' r, U n → rec st n = some (st', r) → r = target G n ∧ Pass G U none st st' ∧
    ∀ t, target G n = some t → (st' t).isSet = true

/-- **The steps** fill in one type node, mark what they call for, and otherwise do what calls do. -/
theorem runSteps_pass {rec : TypeNodes → Nat → Option (TypeNodes × Option Nat)}
    (hrec : RecPass G U rec) {t : Nat} : ∀ {ss : List Step} {st st' : TypeNodes},
    (∀ s ∈ ss, s.Keeps G ∧ ∀ n, s.visits = some n → U n) → (st t).isSet = true →
    runSteps rec t st ss = some st' →
    Pass G U (some t) st st' ∧ st' t = ss.foldl (fun tn s => s.apply G tn) (st t) ∧
      ∀ k ∈ ss.filterMap Step.visits, ∀ u, target G k = some u → (st' u).isSet = true
  | [], st, st', _, _, h => by
    cases h
    exact ⟨Pass.refl _ _, rfl, fun _ hk => by cases hk⟩
  | .own f :: ss, st, st', hss, ht, h => by
    have hown : Pass G U (some t) st (st.set t f) :=
      Pass.own (hss (.own f) List.mem_cons_self).1
    have hself : st.set t f t = f (st t) := Function.update_self t _ st
    obtain ⟨hpass, heq, hvis⟩ := runSteps_pass hrec
      (fun s hs => hss s (List.mem_cons_of_mem _ hs)) (hown.grow t ht) h
    exact ⟨hown.trans hpass, by rw [heq, hself]; rfl, hvis⟩
  | .visit n f :: ss, st, st', hss, ht, h => by
    rw [runSteps] at h
    obtain ⟨hkeeps, hU⟩ := hss (.visit n f) List.mem_cons_self
    cases hr : rec st n with
    | none => simp [hr] at h
    | some p =>
      obtain ⟨st1, r⟩ := p
      simp only [hr] at h
      obtain ⟨rfl, hpass1, hset⟩ := hrec st n st1 r (hU n rfl) hr
      have hown : Pass G U (some t) st1 (st1.set t (f (target G n))) := Pass.own hkeeps
      have hmid := (hpass1.but (some t)).trans hown
      have hself : st1.set t (f (target G n)) t = f (target G n) (st t) := by
        rw [TypeNodes.set, Function.update_self, hpass1.keep t (by simp) ht]
      obtain ⟨hpass, heq, hvis⟩ := runSteps_pass hrec
        (fun s hs => hss s (List.mem_cons_of_mem _ hs)) (hmid.grow t ht) h
      refine ⟨hmid.trans hpass, by rw [heq, hself]; rfl, fun k hk u hu => ?_⟩
      have hcons : (Step.visit n f :: ss).filterMap Step.visits =
          n :: ss.filterMap Step.visits := rfl
      rw [hcons] at hk
      rcases List.mem_cons.mp hk with rfl | hk
      · exact hpass.grow u (hown.grow u (hset u hu))
      · exact hvis k hk u hu

theorem fieldSteps_keeps : ∀ (fs : List FieldDecl), ∀ s ∈ fieldSteps G fs, s.Keeps G
  | [], _, hs => by cases hs
  | f :: fs, s, hs => by
    rcases List.mem_cons.mp hs with rfl | hs
    · intro tn htn
      simp only [Step.apply]
      split <;> exact htn
    · rcases List.mem_cons.mp hs with rfl | hs
      · exact fun tn htn => htn
      · exact fieldSteps_keeps fs s hs

theorem argSteps_keeps : ∀ (as : List ArgType), ∀ s ∈ argSteps as, s.Keeps G
  | [], _, hs => by cases hs
  | a :: as, s, hs => by
    rw [argSteps] at hs
    split at hs
    all_goals
      rcases List.mem_cons.mp hs with rfl | hs
      · exact fun tn htn => htn
      · exact argSteps_keeps as s hs

theorem steps_keeps (node : Nat) : ∀ s ∈ steps G node, s.Keeps G := by
  intro s hs
  unfold steps at hs
  cases hc : (G.tree node).code <;> simp only [hc] at hs
  case record | union => exact fieldSteps_keeps _ s hs
  case function =>
    rcases List.mem_cons.mp hs with rfl | hs
    · exact fun tn htn => htn
    · exact argSteps_keeps _ s hs
  case reference | pointer | vector | array | complex =>
    rw [List.mem_singleton.mp hs]
    exact fun tn htn => htn
  all_goals cases hs

/-- The children that a type node gets of its own: the enumerators. -/
def ownChildren (tr : TypeTree) : List TypeChild :=
  if tr.code = .enumeral then tr.values.map fun e => .enumerator e.node e.name e.value else []

theorem addValues_eq : ∀ {values : List Enumerator} (tn : TypeNode),
    (∀ e ∈ values, e.name ≠ []) → addValues tn values =
      some { tn with
        children := tn.children ++ values.map fun e => .enumerator e.node e.name e.value }
  | [], tn, _ => by simp [addValues]
  | e :: es, tn, h => by
    have hrec := addValues_eq
      { tn with children := tn.children ++ [.enumerator e.node e.name e.value] }
      fun e' he' => h e' (List.mem_cons_of_mem e he')
    simp only [addValues, List.foldlM_cons, if_neg (h e List.mem_cons_self), Option.bind_eq_bind,
      Option.bind_some, List.map_cons] at hrec ⊢
    rw [hrec, List.append_assoc, List.singleton_append]

theorem setOfsize_eq (tr : TypeTree) (tn : TypeNode) :
    (tr.setOfsize tn).isSet = tn.isSet ∧ (tr.setOfsize tn).next = tn.next ∧
      (tr.setOfsize tn).children = tn.children := by
  unfold TypeTree.setOfsize
  split <;> exact ⟨rfl, rfl, rfl⟩

/-- **What a type node gets of its own**: the mark and the enumerators. -/
theorem setOwn_eq (G : TypeGraph) (n : Nat) (tn : TypeNode) :
    ∃ tn', (G.tree n).setOwn tn = some tn' ∧ tn'.isSet = true ∧ tn'.next = tn.next ∧
      tn'.children = tn.children ++ ownChildren (G.tree n) := by
  have hplain : ∀ tn0 : TypeNode, tn0.isSet = true → tn0.next = tn.next →
      tn0.children = tn.children → ∃ tn', some ((G.tree n).setOfsize tn0) = some tn' ∧
        tn'.isSet = true ∧ tn'.next = tn.next ∧ tn'.children = tn.children ++ [] := by
    intro tn0 h1 h2 h3
    obtain ⟨hset, hnext, hchildren⟩ := setOfsize_eq (G.tree n) tn0
    exact ⟨_, rfl, hset.trans h1, hnext.trans h2, by rw [hchildren, h3, List.append_nil]⟩
  unfold TypeTree.setOwn ownChildren
  cases hc : (G.tree n).code
  case enumeral =>
    simp only [if_true]
    rw [addValues_eq _ (G.named n)]
    obtain ⟨hset, hnext, hchildren⟩ := setOfsize_eq (G.tree n) { tn with
      isSet := true, isUnsigned := (G.tree n).isUnsigned, baselen := (G.tree n).precision }
    exact ⟨_, rfl, hset, hnext, congrArg (· ++ _) hchildren⟩
  case integer | real =>
    obtain ⟨size, hs⟩ := Option.ne_none_iff_exists'.mp (G.sized n (by simp [hc]))
    simp [hs]
  case array =>
    cases hm : (G.tree n).maxValue <;> exact hplain _ rfl rfl rfl
  all_goals exact hplain _ rfl rfl rfl

theorem setOwn_isSet {n : Nat} {tn tn' : TypeNode} (h : (G.tree n).setOwn tn = some tn') :
    tn'.isSet = true := by
  obtain ⟨tn1, h1, hset, -⟩ := setOwn_eq G n tn
  rw [h] at h1
  exact Option.some.inj h1 ▸ hset

/-- `U` has with each type the types it is made of. -/
def Closed (G : TypeGraph) (U : Nat → Prop) : Prop := ∀ n, U n → ∀ m ∈ parts G n, U m

/-- **A call** returns the type node of its type, which is marked then, and does what `Pass`
says. -/
theorem typeDetail_pass (hU : Closed G U) : ∀ fuel, RecPass G U (typeDetail G fuel)
  | 0 => fun _ _ _ _ _ h => by cases h
  | fuel + 1 => by
    intro st n st' r hn h
    cases hcode : (G.tree n).code.handled with
    | false =>
      have htarget : target G n = none := by simp [target, hcode]
      simp only [typeDetail, hcode, Bool.false_eq_true, if_false, Option.some.injEq,
        Prod.mk.injEq] at h
      obtain ⟨rfl, rfl⟩ := h
      exact ⟨htarget.symm, Pass.refl _ _, fun t ht => by rw [htarget] at ht; cases ht⟩
    | true =>
      have htarget : target G n = G.findTypeNode n := by simp [target, hcode]
      cases hfind : G.findTypeNode n with
      | none =>
        simp only [typeDetail, hcode, if_true, hfind, Option.some.injEq, Prod.mk.injEq] at h
        obtain ⟨rfl, rfl⟩ := h
        refine ⟨by rw [htarget, hfind], Pass.refl _ _, fun t ht => ?_⟩
        rw [htarget, hfind] at ht
        cases ht
      | some t =>
        cases hset : (st t).isSet with
        | true =>
          simp only [typeDetail, hcode, if_true, hfind, hset, Option.some.injEq,
            Prod.mk.injEq] at h
          obtain ⟨rfl, rfl⟩ := h
          refine ⟨by rw [htarget, hfind], Pass.refl _ _, fun u hu => ?_⟩
          rw [htarget, hfind] at hu
          exact Option.some.inj hu ▸ hset
        | false =>
          rw [typeDetail_steps G hcode hfind hset] at h
          obtain ⟨tn, hown, h⟩ := Option.bind_eq_some_iff.mp h
          obtain ⟨st1, hrun, heq⟩ := Option.map_eq_some_iff.mp h
          cases heq
          have hmark := setOwn_isSet hown
          have hself : (Function.update st t tn) t = tn := Function.update_self t tn st
          have hother : ∀ u, u ≠ t → (Function.update st t tn) u = st u := fun u hu =>
            Function.update_of_ne hu _ _
          obtain ⟨hpass, heq, hvis⟩ := runSteps_pass (typeDetail_pass hU fuel)
            (fun s hs => ⟨steps_keeps n s hs, fun m hm =>
              hU n hn m (List.mem_filterMap.mpr ⟨s, hs, hm⟩)⟩)
            (by rw [hself]; exact hmark) hrun
          rw [hself] at heq
          have ht' : (st' t).isSet = true := hpass.grow t (by rw [hself]; exact hmark)
          have hne : ∀ {u}, u ≠ t → some u ≠ some t := fun hu h => hu (Option.some.inj h)
          refine ⟨by rw [htarget, hfind], ⟨fun u hu => ?_, fun u _ hu => ?_, fun u _ hu => ?_,
            fun u _ hu hu' => ?_⟩, fun u hu => ?_⟩
          · by_cases hut : u = t
            · exact hut ▸ ht'
            · exact hpass.grow u (by rw [hother u hut]; exact hu)
          · have hut : u ≠ t := fun h => by rw [h, hset] at hu; cases hu
            rw [hpass.keep u (hne hut) (by rw [hother u hut]; exact hu), hother u hut]
          · have hut : u ≠ t := fun h => by rw [h, ht'] at hu; cases hu
            rw [hpass.rest u (hne hut) hu, hother u hut]
          · by_cases hut : u = t
            · subst hut
              refine ⟨n, hn, by rw [htarget, hfind], ?_, hvis⟩
              rw [filledIn, hown, heq]
              rfl
            · have hmade := hpass.made u (hne hut) (by rw [hother u hut]; exact hu) hu'
              rwa [hother u hut] at hmade
          · rw [htarget, hfind] at hu
            exact Option.some.inj hu ▸ ht'

/-! ## Termination -/

/-- How many of the type nodes in `T` are not marked. -/
def unset (T : Finset Nat) (st : TypeNodes) : Nat := (T.filter fun t => (st t).isSet = false).card

theorem unset_le {T : Finset Nat} {st st' : TypeNodes}
    (h : ∀ t, (st t).isSet = true → (st' t).isSet = true) : unset T st' ≤ unset T st := by
  refine Finset.card_le_card fun t ht => ?_
  simp only [Finset.mem_filter] at ht ⊢
  refine ⟨ht.1, ?_⟩
  cases hc : (st t).isSet with
  | false => rfl
  | true =>
    rw [h t hc] at ht
    exact absurd ht.2 (by decide)

theorem unset_mark {T : Finset Nat} {st : TypeNodes} {t : Nat} {tn : TypeNode} (ht : t ∈ T)
    (hset : (st t).isSet = false) (htn : tn.isSet = true) :
    unset T (Function.update st t tn) < unset T st := by
  refine Finset.card_lt_card (Finset.ssubset_iff_of_subset (fun u hu => ?_) |>.mpr ⟨t, ?_, ?_⟩)
  · simp only [Finset.mem_filter] at hu ⊢
    by_cases hut : u = t
    · exact hut ▸ ⟨ht, hset⟩
    · rwa [Function.update_of_ne hut] at hu
  · exact Finset.mem_filter.mpr ⟨ht, hset⟩
  · simp [htn]

theorem runSteps_total {rec : TypeNodes → Nat → Option (TypeNodes × Option Nat)}
    (hrec : RecPass G U rec) {T : Finset Nat} {k t : Nat}
    (hrun : ∀ st n, U n → unset T st ≤ k → ∃ r, rec st n = some r) :
    ∀ {ss : List Step} {st : TypeNodes}, (∀ s ∈ ss, s.Keeps G ∧ ∀ n, s.visits = some n → U n) →
      unset T st ≤ k → ∃ st', runSteps rec t st ss = some st'
  | [], st, _, _ => ⟨st, rfl⟩
  | .own f :: ss, st, hss, hk => by
    have hown : Pass G U (some t) st (st.set t f) :=
      Pass.own (hss (.own f) List.mem_cons_self).1
    rw [runSteps]
    exact runSteps_total hrec hrun (fun s hs => hss s (List.mem_cons_of_mem _ hs))
      ((unset_le hown.grow).trans hk)
  | .visit n f :: ss, st, hss, hk => by
    obtain ⟨hkeeps, hU⟩ := hss (.visit n f) List.mem_cons_self
    obtain ⟨⟨st1, r⟩, hr⟩ := hrun st n (hU n rfl) hk
    obtain ⟨rfl, hpass, -⟩ := hrec st n st1 r (hU n rfl) hr
    have hown : Pass G U (some t) st1 (st1.set t (f (target G n))) := Pass.own hkeeps
    rw [runSteps, hr]
    exact runSteps_total hrec hrun (fun s hs => hss s (List.mem_cons_of_mem _ hs))
      ((unset_le hown.grow).trans ((unset_le hpass.grow).trans hk))

/-- **A call comes back** within as many nested calls as there are type nodes left to mark. -/
theorem typeDetail_total (hU : Closed G U) {T : Finset Nat}
    (hT : ∀ n, U n → ∀ t, target G n = some t → t ∈ T) :
    ∀ {fuel : Nat} {st : TypeNodes} {n : Nat}, U n → unset T st < fuel →
      ∃ r, typeDetail G fuel st n = some r
  | 0, _, _, _, h => absurd h (Nat.not_lt_zero _)
  | fuel + 1, st, n, hn, h => by
    cases hcode : (G.tree n).code.handled with
    | false => exact ⟨(st, none), by simp [typeDetail, hcode]⟩
    | true =>
      cases hfind : G.findTypeNode n with
      | none => exact ⟨(st, none), by simp [typeDetail, hcode, hfind]⟩
      | some t =>
        cases hset : (st t).isSet with
        | true => exact ⟨(st, some t), by simp [typeDetail, hcode, hfind, hset]⟩
        | false =>
          have hmem : t ∈ T := hT n hn t (by simp [target, hcode, hfind])
          obtain ⟨tn, hown, hmark, -⟩ := setOwn_eq G n (st t)
          have hless := unset_mark hmem hset hmark
          obtain ⟨st', hrun⟩ := @runSteps_total G U _ (typeDetail_pass hU fuel) T
            (unset T (Function.update st t tn)) t
            (fun st' m hm hk => typeDetail_total hU hT hm (by omega)) (steps G n)
            (Function.update st t tn)
            (fun s hs => ⟨steps_keeps n s hs, fun m hm =>
              hU n hn m (List.mem_filterMap.mpr ⟨s, hs, hm⟩)⟩) (Nat.le_refl _)
          refine ⟨(st', some t), ?_⟩
          rw [typeDetail_steps G hcode hfind hset, hown, Option.bind_some, hrun]
          rfl

/-! ## What a type node is filled in with -/

/-- The children of the arguments. -/
def vaChildren : List ArgType → List TypeChild
  | [] => []
  | a :: as => if as = [] ∧ a.voidMode then .vaList a.node :: vaChildren as else vaChildren as

/-- What `next` of the type node of a type is: the type node of the type that is pointed to or is
    the element. -/
def nextOf (G : TypeGraph) (node : Nat) : Option Nat :=
  match (G.tree node).code with
  | .reference | .pointer | .vector | .array => target G (G.tree node).type
  | _ => none

/-- What the children are: the enumerators; an entry for each field, in their order, with the type
    node of its type; the end of the arguments. -/
def childrenOf (G : TypeGraph) (node : Nat) : List TypeChild :=
  match (G.tree node).code with
  | .enumeral => (G.tree node).values.map fun e => .enumerator e.node e.name e.value
  | .record | .union => (G.tree node).fields.map fun f => .field f.decl f.name (target G f.type)
  | .function => vaChildren (G.tree node).args
  | _ => []

/-- **The type node of a type** is marked and has its `next` and its children. -/
structure NodeRight (G : TypeGraph) (node : Nat) (tn : TypeNode) : Prop where
  set : tn.isSet = true
  next : tn.next = nextOf G node
  children : tn.children = childrenOf G node

theorem fieldSteps_apply : ∀ (fs : List FieldDecl) (tn : TypeNode),
    ((fieldSteps G fs).foldl (fun tn s => s.apply G tn) tn).next = tn.next ∧
      ((fieldSteps G fs).foldl (fun tn s => s.apply G tn) tn).children =
        tn.children ++ fs.map fun f => .field f.decl f.name (target G f.type)
  | [], tn => ⟨rfl, by simp [fieldSteps]⟩
  | f :: fs, tn => by
    simp only [fieldSteps, List.foldl_cons, Step.apply]
    obtain ⟨hnext, hchildren⟩ := fieldSteps_apply fs
      { (if fs = [] ∧ (G.tree f.type).code = .array then { tn with isVariant := true } else tn) with
        children := (if fs = [] ∧ (G.tree f.type).code = .array then
            { tn with isVariant := true } else tn).children ++
          [.field f.decl f.name (target G f.type)] }
    refine ⟨hnext.trans ?_, hchildren.trans ?_⟩
    · dsimp only
      split <;> rfl
    · split <;> simp

theorem argSteps_apply : ∀ (as : List ArgType) (tn : TypeNode),
    ((argSteps as).foldl (fun tn s => s.apply G tn) tn).next = tn.next ∧
      ((argSteps as).foldl (fun tn s => s.apply G tn) tn).children = tn.children ++ vaChildren as
  | [], tn => ⟨rfl, by simp [argSteps, vaChildren]⟩
  | a :: as, tn => by
    rw [argSteps, vaChildren]
    split
    · obtain ⟨hnext, hchildren⟩ :=
        argSteps_apply as { tn with children := tn.children ++ [.vaList a.node] }
      exact ⟨hnext, hchildren.trans (by simp)⟩
    · exact argSteps_apply as tn

/-- What the steps enter. -/
theorem steps_apply (node : Nat) (tn : TypeNode) (hnext : tn.next = none)
    (hchildren : tn.children = ownChildren (G.tree node)) :
    ((steps G node).foldl (fun tn s => s.apply G tn) tn).next = nextOf G node ∧
      ((steps G node).foldl (fun tn s => s.apply G tn) tn).children = childrenOf G node := by
  unfold steps nextOf childrenOf
  unfold ownChildren at hchildren
  cases hc : (G.tree node).code <;> simp only [hc] at hchildren ⊢
  case record | union =>
    obtain ⟨h1, h2⟩ := fieldSteps_apply (G.tree node).fields tn
    exact ⟨h1.trans hnext, h2.trans (by rw [hchildren]; rfl)⟩
  case function =>
    obtain ⟨h1, h2⟩ := @argSteps_apply G (G.tree node).args tn
    exact ⟨h1.trans hnext, h2.trans (by rw [hchildren]; rfl)⟩
  case reference | pointer | vector | array => exact ⟨rfl, hchildren⟩
  all_goals exact ⟨hnext, hchildren⟩

/-- A new type node that is filled in from a type is right for it. -/
theorem nodeRight_of_filledIn {node : Nat} {tn : TypeNode}
    (h : filledIn G node TypeNode.new = some tn) (hset : tn.isSet = true) :
    NodeRight G node tn := by
  obtain ⟨tn0, hown, -, hnext, hchildren⟩ := setOwn_eq G node TypeNode.new
  rw [filledIn, hown] at h
  cases h
  obtain ⟨h1, h2⟩ := steps_apply node tn0 hnext hchildren
  exact ⟨hset, h1, h2⟩

/-! ## All types -/

/-- An entry without its address in the compiler: the same for all types of a type node. -/
def TypeChild.shape : TypeChild → TypeChild
  | .enumerator _ name value => .enumerator 0 name value
  | .field _ name type => .field 0 name type
  | .vaList _ => .vaList 0

/-- Types with one type node have the same `next`, the same entries and parts with the same type
    nodes. -/
structure Agree (G : TypeGraph) (n m : Nat) : Prop where
  next : nextOf G n = nextOf G m
  children : (childrenOf G n).map TypeChild.shape = (childrenOf G m).map TypeChild.shape
  parts : ∀ k ∈ parts G n, ∀ u, target G k = some u → ∃ k' ∈ parts G m, target G k' = some u

/-- One type is a part of another. -/
def PartOf (G : TypeGraph) (n k : Nat) : Prop := k ∈ parts G n

/-- **One type node leads to another**, to that of a part of the type it was filled in from. -/
def LeadsTo (G : TypeGraph) (from' : Nat → Nat) (t u : Nat) : Prop :=
  ∃ k ∈ parts G (from' t), target G k = some u

/-- **The pass is right** for the roots: each type node that a root leads to is filled in from one
    of the types that it is the type node of; and where the types of a type node agree, it is right
    for each type that is reached. -/
structure TypesRight (G : TypeGraph) (types : Finset Nat) (roots : List Nat) (st : TypeNodes) :
    Prop where
  filled : ∃ from' : Nat → Nat, ∀ root ∈ roots, ∀ t, target G root = some t →
    ∀ u, Relation.ReflTransGen (LeadsTo G from') t u →
      target G (from' u) = some u ∧ NodeRight G (from' u) (st u)
  every : (∀ n ∈ types, ∀ m ∈ types, ∀ t, target G n = some t → target G m = some t →
      Agree G n m) →
    ∀ root ∈ roots, ∀ n, Relation.ReflTransGen (PartOf G) root n → ∀ t, target G n = some t →
      (st t).isSet = true ∧ (st t).next = nextOf G n ∧
        (st t).children.map TypeChild.shape = (childrenOf G n).map TypeChild.shape

theorem parts_handled {n k : Nat} (h : k ∈ parts G n) : (G.tree n).code.handled = true := by
  unfold parts steps at h
  cases hc : (G.tree n).code <;> simp only [hc] at h <;> first | rfl | cases h

/-- The calls one after the other. -/
theorem typeDetails_pass (hU : Closed G U) {T : Finset Nat}
    (hT : ∀ n, U n → ∀ t, target G n = some t → t ∈ T) {fuel : Nat} (hfuel : T.card < fuel) :
    ∀ {roots : List Nat} (st : TypeNodes), (∀ r ∈ roots, U r) →
      ∃ st', typeDetails G fuel st roots = some st' ∧ Pass G U none st st' ∧
        ∀ r ∈ roots, ∀ t, target G r = some t → (st' t).isSet = true
  | [], st, _ => ⟨st, rfl, Pass.refl _ _, fun _ h => by cases h⟩
  | r :: roots, st, hroots => by
    have hr := hroots r List.mem_cons_self
    have hless : unset T st < fuel := (Finset.card_filter_le _ _).trans_lt hfuel
    obtain ⟨⟨st1, type⟩, hcall⟩ := typeDetail_total hU hT hr hless
    obtain ⟨-, hpass, hset⟩ := typeDetail_pass hU fuel st r st1 type hr hcall
    obtain ⟨st', hrest, hpass', hset'⟩ := typeDetails_pass hU hT hfuel st1
      fun r' hr' => hroots r' (List.mem_cons_of_mem r hr')
    refine ⟨st', ?_, hpass.trans hpass', fun r' hr' t ht => ?_⟩
    · rw [typeDetails, List.foldlM_cons, hcall]
      exact hrest
    · rcases List.mem_cons.mp hr' with rfl | hr'
      · exact hpass'.grow t (hset t ht)
      · exact hset' r' hr' t ht

/-- The type nodes of some types. -/
def nodesOf (G : TypeGraph) (types : Finset Nat) : Finset Nat :=
  types.image fun n => (target G n).getD 0

theorem target_mem_nodesOf {types : Finset Nat} (n : Nat) (hn : n ∈ types) (t : Nat)
    (ht : target G n = some t) : t ∈ nodesOf G types :=
  Finset.mem_image.mpr ⟨n, hn, by rw [ht]; rfl⟩

/-- **The pass over types that have type nodes** comes back, whatever cycles they form, and is
    right. -/
theorem typeDetails_right (types : Finset Nat) (roots : List Nat) {fuel : Nat}
    (hclosed : Closed G (· ∈ types)) (hroots : ∀ r ∈ roots, r ∈ types)
    (hnodes : ∀ n ∈ types, (G.tree n).code.handled = true → G.findTypeNode n ≠ none)
    (hfuel : types.card < fuel) :
    ∃ st, typeDetails G fuel (fun _ => TypeNode.new) roots = some st ∧
      TypesRight G types roots st := by
  obtain ⟨st, hrun, hpass, hset⟩ := typeDetails_pass hclosed target_mem_nodesOf
    (Finset.card_image_le.trans_lt hfuel) (fun _ => TypeNode.new) hroots
  refine ⟨st, hrun, ?_⟩
  -- the type that each marked type node was filled in from
  have hfrom : ∀ t, ∃ m, (st t).isSet = true → m ∈ types ∧ target G m = some t ∧
      NodeRight G m (st t) ∧ ∀ k ∈ parts G m, ∀ u, target G k = some u → (st u).isSet = true := by
    intro t
    cases hc : (st t).isSet with
    | false => exact ⟨0, fun h => by cases h⟩
    | true =>
      obtain ⟨m, hm, htarget, hfill, hparts⟩ := hpass.made t (by simp) rfl hc
      exact ⟨m, fun _ => ⟨hm, htarget, nodeRight_of_filledIn hfill hc, hparts⟩⟩
  choose from' hfrom using hfrom
  refine ⟨⟨from', fun root hroot t ht u hu => ?_⟩, fun hagree root hroot n hn => ?_⟩
  · have hmarked : (st u).isSet = true := by
      induction hu with
      | refl => exact hset root hroot t ht
      | tail _ hstep ih =>
        obtain ⟨k, hk, htarget⟩ := hstep
        exact (hfrom _ ih).2.2.2 k hk _ htarget
    obtain ⟨-, htarget, hright, -⟩ := hfrom u hmarked
    exact ⟨htarget, hright⟩
  · have hmarked : n ∈ types ∧ ∀ t, target G n = some t → (st t).isSet = true := by
      induction hn with
      | refl => exact ⟨hroots root hroot, fun t ht => hset root hroot t ht⟩
      | @tail n k _ hpart ih =>
        refine ⟨hclosed n ih.1 k hpart, fun u hu => ?_⟩
        have hcode := parts_handled hpart
        obtain ⟨t, ht⟩ := Option.ne_none_iff_exists'.mp (hnodes n ih.1 hcode)
        have htarget : target G n = some t := by rw [target, if_pos hcode, ht]
        obtain ⟨hm, hmt, -, hparts⟩ := hfrom t (ih.2 t htarget)
        obtain ⟨k', hk', hu'⟩ := (hagree n ih.1 _ hm t htarget hmt).parts k hpart u hu
        exact hparts k' hk' u hu'
    intro t ht
    obtain ⟨hm, hmt, hright, -⟩ := hfrom t (hmarked.2 t ht)
    have hsame := hagree n hmarked.1 _ hm t ht hmt
    exact ⟨hright.set, hright.next.trans hsame.next.symm, by rw [hright.children, hsame.children]⟩

/-- `_get_type_detail` does not come to its `BUG` on a type with a case whose type node it is. -/
theorem getTypeDetail_some {fuel tn node : Nat} {st : TypeNodes} {types : Finset Nat}
    (hclosed : Closed G (· ∈ types)) (hnode : node ∈ types) (htn : target G node = some tn)
    (hfuel : types.card < fuel) : ∃ st', getTypeDetail G fuel st tn node = some st' := by
  have hless : unset (nodesOf G types) st < fuel :=
    ((Finset.card_filter_le _ _).trans Finset.card_image_le).trans_lt hfuel
  obtain ⟨⟨st', type⟩, hcall⟩ := typeDetail_total hclosed target_mem_nodesOf hnode hless
  obtain ⟨rfl, -, -⟩ := typeDetail_pass hclosed fuel st node st' type hnode hcall
  refine ⟨st', ?_⟩
  rw [getTypeDetail, hcall, Option.bind_some]
  exact if_pos htn

/-! ## Examples of types -/

/-- An integer type of four bytes. -/
def intTree : TypeTree := ⟨.integer, some 4, false, 32, none, 0, [], [], []⟩

/-- Types without enumerators; all but the first `n` are integers.  Each has a type node. -/
def smallGraph (first : List TypeTree)
    (h : ∀ tr ∈ first, tr.values = [] ∧ tr.sizeUnit ≠ none) : TypeGraph where
  tree n := first.getD n intTree
  findTypeNode n := some n
  named n e he := by
    by_cases hn : n < first.length
    · have hmem : first.getD n intTree ∈ first := by
        simp [List.getD, hn]
      rw [(h _ hmem).1] at he
      cases he
    · have hint : first.getD n intTree = intTree := by
        simp [List.getD, Nat.le_of_not_lt hn]
      rw [hint] at he
      cases he
  sized n _ := by
    by_cases hn : n < first.length
    · have hmem : first.getD n intTree ∈ first := by
        simp [List.getD, hn]
      exact (h _ hmem).2
    · have hint : first.getD n intTree = intTree := by
        simp [List.getD, Nat.le_of_not_lt hn]
      rw [hint]
      exact Option.some_ne_none 4

/-- `struct node { struct node *next; int value; }`: the record, the pointer to it, and `int`. -/
def listGraph : TypeGraph :=
  smallGraph
    [⟨.record, some 16, false, 0, none, 0, [], [⟨0, some [110], 1⟩, ⟨1, some [118], 2⟩], []⟩,
      ⟨.pointer, some 8, false, 64, none, 0, [], [], []⟩]
    (by simp)

/-- A record that leads back to itself. -/
theorem typeDetails_right_list : ∃ st,
    typeDetails listGraph 4 (fun _ => TypeNode.new) [0] = some st ∧
      TypesRight listGraph {0, 1, 2} [0] st :=
  typeDetails_right {0, 1, 2} [0] (by unfold Closed; decide) (by decide) (by decide) (by decide)

/-- Every type that `root` is made of, its type node marked, with the type node of the type that it
    points to, is made of or returns, and the children of the fields. -/
def AllTypesRight (G : TypeGraph) (root : Nat) (st : TypeNodes) : Prop :=
  ∀ n, Relation.ReflTransGen (PartOf G) root n → ∃ t, G.findTypeNode n = some t ∧
    (st t).isSet = true ∧
    (st t).next =
      (match (G.tree n).code with
        | .reference | .pointer | .vector | .array | .complex | .function =>
          G.findTypeNode (G.tree n).type
        | _ => none) ∧
    ((G.tree n).code = .record ∨ (G.tree n).code = .union → (st t).children = childrenOf G n)

/-- `int f()`: the function type, and `int`. -/
def functionGraph : TypeGraph :=
  smallGraph [⟨.function, some 1, false, 0, none, 1, [], [], []⟩] (by simp)

/-- **A function type** does not get the type node of what it returns. -/
theorem function_next_null : ∃ st,
    typeDetails functionGraph 3 (fun _ => TypeNode.new) [0] = some st ∧ (st 0).next = none ∧
      functionGraph.findTypeNode 1 = some 1 ∧ ¬ AllTypesRight functionGraph 0 st := by
  refine ⟨_, rfl, rfl, rfl, fun hright => ?_⟩
  obtain ⟨t, ht, -, hnext, -⟩ := hright 0 .refl
  cases ht
  cases hnext

end Srcinv.Analysis.TypeDetail
