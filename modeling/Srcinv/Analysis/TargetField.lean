import Srcinv.Analysis.FieldOffset
import Srcinv.Analysis.TypeDetail

/-!
# The field that a tree names (`get_target_field0`, `get_component_ref_vnl` in `analysis/gcc/c.cc`)

A type node has one child for each field, made from the field of one of the types that share the
node.  A field of another of these types is looked for by its place in the source; where two
neighbours are at one place, as the fields that a macro makes are, by its name.

* `ToldApart` — the fields of a type node differ in what they are looked for by.
* `getTargetField0_toldApart` — then the child that stands for a field is found.
* `getComponentRefVnl_of_start` — what is found for a `COMPONENT_REF` does not depend on what the
  thread has done, unless it is to be logged what the thread is at.
-/

namespace Srcinv.Analysis.TargetField

open TypeDetail

/-! ## Type nodes and fields -/

/-- What is read of a `FIELD_DECL`. -/
structure FieldTree where
  xloc : XLoc
  name : Option Name
  context : Option Nat
  type : Nat
  chain : Option Nat
  offset : FieldOffset.FieldDecl

/-- A `var_node`, and its type if it has one. -/
structure VarNode where
  id : Nat
  type : Option Nat
  deriving DecidableEq, Repr

/-- A type node that the search for a field goes on in. -/
def isRecord : TypeCode → Bool
  | .record | .union => true
  | _ => false

/-- The types with their type nodes, as phase 3 leaves these.  The children of a record that are
    records, what a pointer points to through pointers, and the arrays in an array come to an
    end. -/
structure FieldGraph extends TypeGraph where
  nodes : TypeNodes
  typeCode : Nat → TypeCode
  /-- The `var_node` of a child, by the field that the child was made from. -/
  fieldVn : Nat → Nat
  field : Nat → FieldTree
  rank : Nat → Nat
  rank_child : ∀ tn decl name t, .field decl name (some t) ∈ (nodes tn).children →
    t ≠ tn → isRecord (typeCode t) → rank t < rank tn
  rank_next : ∀ tn t, typeCode tn = .pointer → (nodes tn).next = some t → rank t < rank tn
  depth : Nat → Nat
  depth_elem : ∀ type, (tree type).code = .array → depth (tree type).type < depth type

/-- No types. -/
def noFields : FieldGraph where
  tree _ := ⟨.void, none, false, 0, none, 0, [], [], []⟩
  findTypeNode _ := none
  named := fun _ _ h => by cases h
  sized := fun _ h => by obtain h | h := h <;> cases h
  nodes _ := .new
  typeCode _ := .void
  fieldVn _ := 0
  field _ := ⟨⟨none, 0, 0⟩, none, none, 0, none, ⟨none, none, 0⟩⟩
  rank _ := 0
  rank_child := fun _ _ _ _ h => by cases h
  rank_next := fun _ _ h => by cases h
  depth _ := 0
  depth_elem := fun _ h => by cases h

variable (G : FieldGraph)

/-! ## `get_target_field0` -/

/-- `same_location`. -/
def sameLocation (xloc1 xloc2 : XLoc) : Bool :=
  xloc1.file = xloc2.file ∧ xloc1.line = xloc2.line ∧ xloc1.column = xloc2.column

/-- A child of a record: the field it was made from, and its `var_node`. -/
structure FieldVar where
  decl : Nat
  var : VarNode
  deriving DecidableEq, Repr

def fieldVar : TypeChild → Option FieldVar
  | .field decl _ type => some ⟨decl, ⟨G.fieldVn decl, type⟩⟩
  | .enumerator .. | .vaList _ => none

/-- The children of a record. -/
def fieldVars (tn : Nat) : List FieldVar := (G.nodes tn).children.filterMap (fieldVar G)

/-- `is_type_from_expand_macro`: two fields next to each other are at one place. -/
def isTypeFromExpandMacro : List FieldVar → Bool
  | a :: b :: rest =>
    sameLocation (G.field a.decl).xloc (G.field b.decl).xloc || isTypeFromExpandMacro (b :: rest)
  | _ => false

/-- `field_idx`; `none` is `-1`. -/
def fieldIdx (type field : Nat) : Option Nat :=
  ((G.tree type).fields.map TypeDetail.FieldDecl.decl).idxOf? field

/-- The type nodes of two fields are compared when the fields have no names. -/
def sameFieldType (field0 field1 : Nat) : Bool :=
  G.findTypeNode (G.field field0).type = G.findTypeNode (G.field field1).type

/-- Fields of one type that have no names. -/
def sameUnnamed (field0 field1 : Nat) : Bool :=
  match (G.field field0).context, (G.field field1).context with
  | some type0, some type1 =>
    if G.findTypeNode type0 = G.findTypeNode type1 ∧
        (fieldIdx G type0 field0 = fieldIdx G type1 field1 ∨
          FieldOffset.getFieldOffset (G.field field0).offset =
            FieldOffset.getFieldOffset (G.field field1).offset) then true
    else sameFieldType G field0 field1
  | _, _ => sameFieldType G field0 field1

/-- `is_same_field`; `none` is a failed `BUG_ON` of `get_node_name`. -/
def isSameField (field0 field1 : Nat) (macroExpanded : Bool) : Option Bool :=
  if !macroExpanded then some (sameLocation (G.field field0).xloc (G.field field1).xloc)
  else
    match (G.field field0).name, (G.field field1).name with
    | none, some _ | some _, none => some false
    | none, none => some (sameUnnamed G field0 field1)
    | some tname0, some tname1 => do
      let name0 := (← getNodeName tname0).takeWhile (· ≠ 0)
      let name1 := (← getNodeName tname1).takeWhile (· ≠ 0)
      if name0 = [] ∧ name1 = [] then some (sameFieldType G field0 field1)
      else some (name0 = name1)

/-- A search that may stop: the first result. -/
def firstSome {α β : Type} (f : α → Option (Option β)) : List α → Option (Option β)
  | [] => some none
  | a :: as =>
    match f a with
    | none => none
    | some none => firstSome f as
    | some (some b) => some (some b)

/-- The loop over the children for the field itself. -/
def findSameField (field : Nat) (macroExpanded : Bool) (children : List FieldVar) :
    Option (Option FieldVar) :=
  firstSome (fun c => (isSameField G c.decl field macroExpanded).map fun same =>
    if same then some c else none) children

/-- A child of a record comes from an entry of `children`. -/
theorem mem_fieldVars {tn : Nat} {c : FieldVar} (h : c ∈ fieldVars G tn) :
    ∃ name, .field c.decl name c.var.type ∈ (G.nodes tn).children := by
  obtain ⟨child, hchild, hvar⟩ := List.mem_filterMap.mp h
  cases child with
  | field decl name type =>
    cases hvar
    exact ⟨name, hchild⟩
  | enumerator node name value => cases hvar
  | vaList node => cases hvar

/-- `get_target_field0` of a type node; `none` is a failed `BUG_ON` or the `TREE_CODE` of a null
    field. -/
def getTargetField0 (tn : Nat) (field : Option Nat) : Option (Option FieldVar) :=
  if _hp : G.typeCode tn = .pointer then
    match _hn : (G.nodes tn).next with
    | none => some none
    | some next => getTargetField0 next field
  else if isRecord (G.typeCode tn) then
    match field with
    | none => none
    | some f =>
      match findSameField G f (isTypeFromExpandMacro G (fieldVars G tn)) (fieldVars G tn) with
      | none => none
      | some (some c) => some (some c)
      | some none =>
        firstSome (fun c : { c // c ∈ fieldVars G tn } =>
          match _ht : c.1.var.type with
          | none => some none
          | some t =>
            if _hrec : t ≠ tn ∧ isRecord (G.typeCode t) then getTargetField0 t (some f)
            else some none) (fieldVars G tn).attach
  else some none
  termination_by G.rank tn
  decreasing_by
    · exact G.rank_next tn next _hp _hn
    · obtain ⟨name, hmem⟩ := mem_fieldVars G c.2
      rw [_ht] at hmem
      exact G.rank_child tn c.1.decl name t hmem _hrec.1 _hrec.2

/-! ## The right child -/

theorem firstSome_eq {α β : Type} {f : α → Option (Option β)} {l : List α} {i : Nat} {a : α} {b : β}
    (hi : l[i]? = some a) (ha : f a = some (some b))
    (hbefore : ∀ j a', j < i → l[j]? = some a' → f a' = some none) :
    firstSome f l = some (some b) := by
  induction l generalizing i with
  | nil => cases hi
  | cons x l ih =>
    cases i with
    | zero =>
      cases hi
      simp only [firstSome, ha]
    | succ i =>
      simp only [firstSome, hbefore 0 x (Nat.succ_pos i) rfl]
      exact ih hi fun j a' hj ha' => hbefore (j + 1) a' (Nat.succ_lt_succ hj) ha'

/-- Two fields are at one place in the source. -/
def SamePlace (field0 field1 : Nat) : Prop := (G.field field0).xloc = (G.field field1).xloc

/-- A name that `get_node_name` copies whole. -/
def Copied (name : Name) : Prop := 0 < name.length ∧ name.length < NAME_MAX ∧ 0 ∉ name

/-- **The fields can be told apart**: no two are at one place; or two neighbours are, and all have
    names that differ. -/
inductive ToldApart (fields : List Nat) : Prop
  | places (h : fields.Pairwise fun a b => ¬ SamePlace G a b)
  | names {i a b : Nat} (ha : fields[i]? = some a) (hb : fields[i + 1]? = some b)
    (hsame : SamePlace G a b) (hnames : ∀ f ∈ fields, ∃ name, (G.field f).name = some name ∧
      Copied name)
    (h : fields.Pairwise fun a b => (G.field a).name ≠ (G.field b).name)

/-- A child stands for a field: it was made from a field with the name of this one, at the same
    place. -/
structure StandsFor (decl field : Nat) : Prop where
  place : SamePlace G decl field
  name : (G.field decl).name = (G.field field).name

variable {G}

theorem sameLocation_iff {xloc1 xloc2 : XLoc} :
    sameLocation xloc1 xloc2 = true ↔ xloc1 = xloc2 := by
  obtain ⟨file1, line1, column1⟩ := xloc1
  obtain ⟨file2, line2, column2⟩ := xloc2
  simp [sameLocation]


/-- `is_type_from_expand_macro` looks for neighbours at one place. -/
theorem isTypeFromExpandMacro_iff {children : List FieldVar} :
    isTypeFromExpandMacro G children = true ↔ ∃ i a b, children[i]? = some a ∧
      children[i + 1]? = some b ∧ SamePlace G a.decl b.decl := by
  induction children with
  | nil => simp [isTypeFromExpandMacro]
  | cons a rest ih =>
    cases rest with
    | nil => simp [isTypeFromExpandMacro]
    | cons b rest =>
      rw [isTypeFromExpandMacro, Bool.or_eq_true, ih, sameLocation_iff]
      constructor
      · rintro (h | ⟨i, a', b', ha, hb, h⟩)
        · exact ⟨0, a, b, rfl, rfl, h⟩
        · exact ⟨i + 1, a', b', ha, hb, h⟩
      · rintro ⟨i, a', b', ha, hb, h⟩
        cases i with
        | zero =>
          cases ha
          cases hb
          exact .inl h
        | succ i => exact .inr ⟨i, a', b', ha, hb, h⟩

/-- A name that is copied whole reads back as it is. -/
theorem Copied.read {name : Name} (h : Copied name) :
    getNodeName name = some name ∧ name.takeWhile (· ≠ 0) = name ∧ name ≠ [] := by
  obtain ⟨hpos, hlt, hzero⟩ := h
  refine ⟨?_, ?_, List.length_pos_iff.mp hpos⟩
  · rw [getNodeName, if_neg (by omega)]
  · rw [List.takeWhile_eq_self_iff]
    intro x hx
    simp only [decide_eq_true_eq]
    rintro rfl
    exact hzero hx

/-- Fields with names are compared by them where places do not tell. -/
theorem isSameField_names {field0 field1 : Nat} {name0 name1 : Name}
    (h0 : (G.field field0).name = some name0) (h1 : (G.field field1).name = some name1)
    (hc0 : Copied name0) (hc1 : Copied name1) :
    isSameField G field0 field1 true = some (decide (name0 = name1)) := by
  obtain ⟨hname0, htake0, hne⟩ := hc0.read
  obtain ⟨hname1, htake1, -⟩ := hc1.read
  have hboth : ¬ (name0 = [] ∧ name1 = []) := fun h => hne h.1
  unfold isSameField
  simp only [Bool.not_true, Bool.false_eq_true, if_false, h0, h1, hname0, hname1,
    Option.bind_eq_bind, Option.bind_some, htake0, htake1]
  rw [if_neg hboth]

variable {tn i f : Nat} {c : FieldVar}

/-- Two children of a list of which all pairs differ. -/
theorem decl_pairwise {R : Nat → Nat → Prop} {children : List FieldVar} {j : Nat} {c' : FieldVar}
    (h : (children.map FieldVar.decl).Pairwise R) (hj : j < i) (hc' : children[j]? = some c')
    (hc : children[i]? = some c) : R c'.decl c.decl := by
  obtain ⟨hlt, rfl⟩ := List.getElem?_eq_some_iff.mp hc
  obtain ⟨hlt', rfl⟩ := List.getElem?_eq_some_iff.mp hc'
  have hpair := List.pairwise_iff_getElem.mp h j i (by simpa using hlt') (by simpa using hlt) hj
  simpa using hpair

/-- **Among fields that can be told apart the one that stands for `f` is found.** -/
theorem findSameField_toldApart {children : List FieldVar}
    (htold : ToldApart G (children.map FieldVar.decl)) (hc : children[i]? = some c)
    (hstands : StandsFor G c.decl f) :
    findSameField G f (isTypeFromExpandMacro G children) children = some (some c) := by
  have hmem : c ∈ children := List.mem_of_getElem? hc
  cases htold with
  | places h =>
    have hexpand : isTypeFromExpandMacro G children = false := by
      rw [Bool.eq_false_iff, Ne, isTypeFromExpandMacro_iff]
      rintro ⟨j, a, b, ha, hb, hsame⟩
      exact decl_pairwise h (Nat.lt_succ_self j) ha hb hsame
    rw [hexpand]
    refine firstSome_eq hc ?_ fun j c' hj hc' => ?_
    · simp [isSameField, sameLocation_iff.mpr hstands.place]
    · have hother : sameLocation (G.field c'.decl).xloc (G.field f).xloc = false := by
        rw [Bool.eq_false_iff, Ne, sameLocation_iff]
        exact fun hplace => decl_pairwise h hj hc' hc (hplace.trans hstands.place.symm)
      simp [isSameField, hother]
  | @names k a b ha hb hsame hnames h =>
    have hexpand : isTypeFromExpandMacro G children = true := by
      rw [List.getElem?_map, Option.map_eq_some_iff] at ha hb
      obtain ⟨a', ha, rfl⟩ := ha
      obtain ⟨b', hb, rfl⟩ := hb
      exact isTypeFromExpandMacro_iff.mpr ⟨k, a', b', ha, hb, hsame⟩
    obtain ⟨name, hname, hcopied⟩ := hnames c.decl (List.mem_map_of_mem hmem)
    have hf : (G.field f).name = some name := hstands.name.symm.trans hname
    rw [hexpand]
    refine firstSome_eq hc ?_ fun j c' hj hc' => ?_
    · simp [isSameField_names hname hf hcopied hcopied]
    · obtain ⟨name', hname', hcopied'⟩ :=
        hnames c'.decl (List.mem_map_of_mem (List.mem_of_getElem? hc'))
      have hne : name' ≠ name := by
        rintro rfl
        exact decl_pairwise h hj hc' hc (hname'.trans hname.symm)
      simp [isSameField_names hname' hf hcopied' hcopied, hne]

/-- **The search from a record** ends at the child that stands for the field. -/
theorem getTargetField0_toldApart (hrec : isRecord (G.typeCode tn) = true)
    (htold : ToldApart G ((fieldVars G tn).map FieldVar.decl)) (hc : (fieldVars G tn)[i]? = some c)
    (hstands : StandsFor G c.decl f) : getTargetField0 G tn (some f) = some (some c) := by
  have hnot : G.typeCode tn ≠ .pointer := by
    intro h
    rw [h] at hrec
    cases hrec
  rw [getTargetField0, dif_neg hnot, if_pos hrec, findSameField_toldApart htold hc hstands]

/-! ## `get_component_ref_vnl` -/

/-- The thread-local `cur_fsn` and `cur_gimple`; both are `NULL` when a thread starts. -/
structure Locals where
  curFsn : Option Nat
  curGimple : Option Nat
  deriving DecidableEq, Repr

def Locals.start : Locals := ⟨none, none⟩

/-- The first operand of a `COMPONENT_REF`, by the cases of `get_component_ref_vnl`, with its
    `TREE_TYPE`; of an `ARRAY_REF` with the `TREE_TYPE` of its own first operand. -/
inductive RefBase where
  | componentRef (type : Nat)
  | memRef (type : Nat)
  | arrayRef (op0Type : Nat)
  | decl (type : Nat)
  | indirectRef (type : Nat)
  | other
  deriving DecidableEq, Repr

/-- The operands of a `COMPONENT_REF`; of the third it matters whether there is one. -/
structure ComponentRef where
  t0 : RefBase
  t1 : Option Nat
  t2 : Bool
  deriving DecidableEq, Repr

variable (G)

/-- The type of the elements of nested arrays. -/
def stripArrays (type : Nat) : Nat :=
  if _h : (G.tree type).code = .array then stripArrays (G.tree type).type else type
  termination_by G.depth type
  decreasing_by exact G.depth_elem type _h

/-- `get_array_ref_tn`; `none` is the `BUG_ON` of an operand that is no array. -/
def getArrayRefTn (op0Type : Nat) : Option (Option Nat) :=
  if (G.tree op0Type).code ≠ .array then none
  else some (G.findTypeNode (stripArrays G (G.tree op0Type).type))

/-- The type node that the field is looked for in.  Of another operand the log is told where the
    thread is, which reads `cur_gimple` and `cur_fsn`. -/
def componentRefTn (loc : Locals) : RefBase → Option (Option Nat)
  | .componentRef type | .memRef type | .decl type | .indirectRef type => some (G.findTypeNode type)
  | .arrayRef op0Type => getArrayRefTn G op0Type
  | .other => if loc.curGimple = none ∨ loc.curFsn = none then none else some none

/-- `get_component_ref_vnl` outside of phase 4: the `var_node` of the field.  `none` is a failed
    `BUG_ON` or a read through a null pointer. -/
def getComponentRefVnl (loc : Locals) (op : ComponentRef) : Option (Option Nat) :=
  if op.t2 then none
  else
    match componentRefTn G loc op.t0 with
    | none => none
    | some none => some none
    | some (some tn) => (getTargetField0 G tn op.t1).map (Option.map fun vnl => vnl.var.id)

variable {G} {loc loc' : Locals} {op : ComponentRef} {r : Option Nat}

/-- **What is found at the start of a thread is found at any time.** -/
theorem getComponentRefVnl_of_start (h : getComponentRefVnl G .start op = some r) (loc : Locals) :
    getComponentRefVnl G loc op = some r := by
  obtain ⟨t0, t1, t2⟩ := op
  cases t0 with
  | other => simp [getComponentRefVnl, componentRefTn, Locals.start] at h
  | _ => exact h

/-- The thread has come to a statement. -/
def Locals.AtStmt (loc : Locals) : Prop := loc.curFsn.isSome ∧ loc.curGimple.isSome

/-- **A thread that has come to a statement finds what any thread finds that does not stop.** -/
theorem getComponentRefVnl_atStmt (hloc : loc.AtStmt) (loc' : Locals) (op : ComponentRef) :
    getComponentRefVnl G loc' op = none ∨
      getComponentRefVnl G loc' op = getComponentRefVnl G loc op := by
  obtain ⟨t0, t1, t2⟩ := op
  cases t0 with
  | other =>
    have hat : ¬ (loc.curGimple = none ∨ loc.curFsn = none) := by
      rintro (h | h)
      · simp [Locals.AtStmt, h] at hloc
      · simp [Locals.AtStmt, h] at hloc
    unfold getComponentRefVnl componentRefTn
    dsimp only
    rw [if_neg hat]
    by_cases hloc' : loc'.curGimple = none ∨ loc'.curFsn = none
    · rw [if_pos hloc']
      exact .inl (ite_self _)
    · rw [if_neg hloc']
      exact .inr rfl
  | _ => exact .inr rfl

end Srcinv.Analysis.TargetField
