import Mathlib.Data.List.TakeWhile
import Mathlib.Data.List.Pairwise
import Mathlib.Tactic.Use

/-!
# The field at a bit offset (`calculate_field_offset` in `analysis/gcc/c.cc`)

A search goes over the fields of a type in their order and remembers the field before.  A field
that starts at the target is taken; once a field starts behind the target, the field before is
taken, or is searched in its turn when it is a record.

* `scanFields_children` — the loop over the fields, by the fields around the target.
* `search_cases` — the ways in which a search goes on.
* `targetField_exact` — the innermost field at the target is found, with its offset, and nothing is
  read through a null pointer, exactly when `FieldMet` holds.
-/

namespace Srcinv.Analysis.FieldOffset

/-! ## Types and fields -/

def BITS_PER_UNIT : Nat := 8

/-- The `type_code`s that `__check_field` tells apart. -/
inductive TypeCode where
  | integerType
  | pointerType
  | arrayType
  | enumeralType
  | recordType
  | unionType
  | other
  deriving DecidableEq, Repr

/-- A `FIELD_DECL`: `DECL_FIELD_OFFSET` in bytes, `DECL_FIELD_BIT_OFFSET`, and `DECL_SIZE` in bits,
    which the search does not read. -/
structure FieldDecl where
  fieldOffset : Option Nat
  fieldBitOffset : Option Nat
  size : Nat
  deriving DecidableEq, Repr

/-- `get_field_offset`. -/
def getFieldOffset (field : FieldDecl) : Nat :=
  field.fieldOffset.elim 0 (· * BITS_PER_UNIT) + field.fieldBitOffset.elim 0 id

/-- `struct var_list` of a field, with the type node of its type if it has one. -/
structure VarList (T : Type) where
  node : FieldDecl
  type : Option T

/-- `struct type_node`: for a record or a union the children are its fields. -/
inductive TypeNode where
  | mk (typeCode : TypeCode) (ofsize : Nat) (children : List (VarList TypeNode))

namespace TypeNode

def typeCode : TypeNode → TypeCode
  | mk typeCode _ _ => typeCode

def ofsize : TypeNode → Nat
  | mk _ ofsize _ => ofsize

def children : TypeNode → List (VarList TypeNode)
  | mk _ _ children => children

end TypeNode

abbrev Field := VarList TypeNode

/-- A type is larger than the types of its fields. -/
theorem sizeOf_type_lt {tn t : TypeNode} {f : Field} (hf : f ∈ tn.children)
    (ht : f.type = some t) : sizeOf t < sizeOf tn := by
  obtain ⟨typeCode, ofsize, children⟩ := tn
  have hlt : sizeOf f < sizeOf children := List.sizeOf_lt_of_mem hf
  obtain ⟨node, type⟩ := f
  obtain rfl : type = some t := ht
  simp only [VarList.mk.sizeOf_spec, Option.some.sizeOf_spec] at hlt
  simp only [TypeNode.mk.sizeOf_spec]
  omega

/-! ## The search -/

/-- The result of `__check_field`: `-1`, `0` or `1`. -/
inductive FieldCheck where
  | nothing
  | target
  | again
  deriving DecidableEq, Repr

def checkCode : TypeCode → FieldCheck
  | .integerType | .pointerType | .arrayType | .enumeralType => .target
  | .recordType => .again
  | .unionType => .target
  | .other => .nothing

/-- How the loop over the fields ends: a field is returned, the type of a field is searched, or
    nothing is found in the loop.  The number is `*prev_off`. -/
inductive Scan where
  | found (vnl : Field) (prevOff : Nat)
  | inside (vnl : Field) (type : TypeNode)
  | done (prevOff : Nat)

/-- The loop of `calculate_field_offset`; `none` is a read through a null pointer, of `prev_vnl` or
    of its type. -/
def scanFields (baseOff targetOffset : Nat) :
    List Field → (prevOff : Nat) → (prevVnl : Option Field) → Option Scan
  | [], prevOff, _ => some (.done prevOff)
  | tmp :: rest, prevOff, prevVnl =>
    let off := getFieldOffset tmp.node
    let goOn :=
      if off + baseOff > targetOffset then some (.done off)
      else scanFields baseOff targetOffset rest off (some tmp)
    if off + baseOff = targetOffset then some (.found tmp prevOff)
    else if prevOff + baseOff < targetOffset ∧ off + baseOff > targetOffset then
      match prevVnl with
      | none => none
      | some vnl =>
        match vnl.type with
        | none => none
        | some type =>
          match checkCode type.typeCode with
          | .target => some (.found vnl prevOff)
          | .again => some (.inside vnl type)
          | .nothing => goOn
    else goOn

theorem scanFields_inside {baseOff targetOffset : Nat} {fs : List Field} {prevOff : Nat}
    {prevVnl : Option Field} {vnl : Field} {type : TypeNode}
    (h : scanFields baseOff targetOffset fs prevOff prevVnl = some (.inside vnl type)) :
    (vnl ∈ fs ∨ prevVnl = some vnl) ∧ vnl.type = some type := by
  induction fs generalizing prevOff prevVnl with
  | nil => cases h
  | cons tmp rest ih =>
    have hgo : (if getFieldOffset tmp.node + baseOff > targetOffset then
        some (Scan.done (getFieldOffset tmp.node))
        else scanFields baseOff targetOffset rest (getFieldOffset tmp.node) (some tmp)) =
          some (.inside vnl type) → (vnl ∈ tmp :: rest ∨ prevVnl = some vnl) ∧
            vnl.type = some type := by
      intro h
      split at h
      · cases h
      · obtain ⟨hmem | hprev, ht⟩ := ih h
        · exact ⟨Or.inl (List.mem_cons_of_mem tmp hmem), ht⟩
        · obtain rfl := Option.some.inj hprev
          exact ⟨Or.inl List.mem_cons_self, ht⟩
    unfold scanFields at h
    dsimp only at h
    split at h
    · cases h
    · split at h
      · split at h
        · cases h
        · split at h
          · cases h
          · rename_i htype
            split at h
            · cases h
            · cases h
              exact ⟨Or.inr rfl, htype⟩
            · exact hgo h
      · exact hgo h

/-- `calculate_field_offset`: the field, `*prev_off` and `*base_off`. -/
def calculateFieldOffset (tn : TypeNode) (prevOff baseOff targetOffset : Nat) :
    Option (Option Field × Nat × Nat) :=
  match _hscan : scanFields baseOff targetOffset tn.children prevOff none with
  | none => none
  | some (.found vnl prevOff) => some (some vnl, prevOff, baseOff)
  | some (.inside vnl type) =>
    calculateFieldOffset type 0 (baseOff + getFieldOffset vnl.node) targetOffset
  | some (.done prevOff) =>
    match _hlast : tn.children.getLast? with
    | none => some (none, prevOff, baseOff)
    | some tmp =>
      match _htype : tmp.type with
      | none => some (none, prevOff, baseOff)
      | some type =>
        let off := getFieldOffset tmp.node
        if off + baseOff < targetOffset ∧
            off + baseOff + type.ofsize * BITS_PER_UNIT > targetOffset then
          match checkCode type.typeCode with
          | .target => some (some tmp, prevOff, baseOff)
          | .again => calculateFieldOffset type 0 (baseOff + off) targetOffset
          | .nothing => some (none, prevOff, baseOff)
        else some (none, prevOff, baseOff)
  termination_by sizeOf tn
  decreasing_by
  · obtain ⟨hmem | hprev, htype⟩ := scanFields_inside _hscan
    · exact sizeOf_type_lt hmem htype
    · cases hprev
  · exact sizeOf_type_lt (List.mem_of_getLast? _hlast) _htype

/-- `get_target_field1`. -/
def getTargetField1 (tn : Option TypeNode) (targetOffset : Nat) : Option (Option Field) :=
  match tn with
  | none => some none
  | some tn => (calculateFieldOffset tn 0 0 targetOffset).map fun r => r.1

/-! ## What is at a target -/

/-- The bit offset of a field in its type. -/
def Field.off (f : Field) : Nat := getFieldOffset f.node

/-- A type node of a record or a union. -/
def HasFields (tn : TypeNode) : Prop := tn.typeCode = .recordType ∨ tn.typeCode = .unionType

instance (tn : TypeNode) : Decidable (HasFields tn) := inferInstanceAs (Decidable (_ ∨ _))

/-- The fields of a record or a union. -/
def TypeNode.fields (tn : TypeNode) : List Field := if HasFields tn then tn.children else []

/-- The field starts at the target or contains it. -/
def Covers (f : Field) (target : Nat) : Prop :=
  Field.off f = target ∨ Field.off f < target ∧ target < Field.off f + f.node.size

/-- A field of the type or of a type in it, with the offset of the type that it is a field of. -/
inductive FieldAt : TypeNode → Nat → Field → Prop
  | child {tn : TypeNode} {f : Field} (h : f ∈ tn.fields) : FieldAt tn 0 f
  | nested {tn t : TypeNode} {g f : Field} {base : Nat} (hg : g ∈ tn.fields)
    (ht : g.type = some t) (h : FieldAt t base f) : FieldAt tn (Field.off g + base) f

/-- Some field starts at the target or contains it. -/
def Hits (tn : TypeNode) (target : Nat) : Prop :=
  ∃ base f, FieldAt tn base f ∧ base ≤ target ∧ Covers f (target - base)

/-- What is asked of the search: a field with the offset that its own type has, that starts at the
    target or contains it and has no such field in it; and no field where there is none. -/
def FieldFound (tn : TypeNode) (target : Nat) : Option Field → Nat → Prop
  | none, _ => ¬ Hits tn target
  | some f, base => FieldAt tn base f ∧ base ≤ target ∧ Covers f (target - base) ∧
    ∀ t, f.type = some t → ¬ Hits t (target - base - Field.off f)

/-- The search comes back with what is asked of it. -/
def TargetRight (tn : TypeNode) (target : Nat) : Prop :=
  ∃ vnl prevOff baseOff, calculateFieldOffset tn 0 0 target = some (vnl, prevOff, baseOff) ∧
    getTargetField1 (some tn) target = some vnl ∧ FieldFound tn target vnl baseOff

/-- The fields of a type and of the types in it are in the order of their offsets. -/
inductive TypeNode.Sorted : TypeNode → Prop
  | mk {typeCode : TypeCode} {ofsize : Nat} {children : List Field}
    (order : children.Pairwise fun f g => Field.off f ≤ Field.off g)
    (types : ∀ f ∈ children, ∀ t, f.type = some t → t.Sorted) :
    Sorted (.mk typeCode ofsize children)

/-- The layout of a record or a union. -/
structure Layout where
  tn : TypeNode
  hasFields : HasFields tn
  sorted : tn.Sorted

/-! ## The condition -/

/-- The last field before the target. -/
def before (tn : TypeNode) (target : Nat) : Option Field :=
  (tn.children.takeWhile fun f => decide (Field.off f < target)).getLast?

/-- The first field that is not before the target. -/
def next (tn : TypeNode) (target : Nat) : Option Field :=
  (tn.children.dropWhile fun f => decide (Field.off f < target)).head?

/-- No field starts at the target, as the search sees it. -/
def NoStart (tn : TypeNode) (target : Nat) : Prop :=
  ∀ f, next tn target = some f → Field.off f ≠ target

/-- The last field before the target is looked at: there is a field behind the target, or the field
    reaches beyond the target by the size of its type. -/
def LooksAt (tn : TypeNode) (target : Nat) (g : Field) (t : TypeNode) : Prop :=
  (next tn target).isSome ∨ target < Field.off g + t.ofsize * BITS_PER_UNIT

/-- **The condition**, down the records that the search goes through. -/
inductive FieldMet : TypeNode → Nat → Prop
  /-- A field starts at the target, and no field of its type starts there. -/
  | start {tn : TypeNode} {target : Nat} {f : Field} (hnext : next tn target = some f)
    (hoff : Field.off f = target) (hleaf : ∀ t, f.type = some t → ¬ Hits t 0) : FieldMet tn target
  /-- There is no field, or the first one is behind the target and the target is the start. -/
  | empty {tn : TypeNode} {target : Nat} (hbefore : before tn target = none)
    (hstart : NoStart tn target) (hzero : ∀ f, next tn target = some f → target = 0) :
    FieldMet tn target
  /-- The field before the target contains it, and no field of its type does. -/
  | leaf {tn t : TypeNode} {target : Nat} {g : Field} (hbefore : before tn target = some g)
    (hstart : NoStart tn target) (htype : g.type = some t) (hlook : LooksAt tn target g t)
    (hcode : checkCode t.typeCode = .target) (hcovers : Covers g target)
    (hleaf : ¬ Hits t (target - Field.off g)) : FieldMet tn target
  /-- The field before the target is a record, the condition holds in it, and some field of it
      covers the target, or none of all. -/
  | record {tn t : TypeNode} {target : Nat} {g : Field} (hbefore : before tn target = some g)
    (hstart : NoStart tn target) (htype : g.type = some t) (hlook : LooksAt tn target g t)
    (hcode : checkCode t.typeCode = .again) (hin : FieldMet t (target - Field.off g))
    (hhits : Hits t (target - Field.off g) ∨ ¬ Hits tn target) : FieldMet tn target
  /-- The field before the target is not taken, and no field covers the target. -/
  | passed {tn : TypeNode} {target : Nat} {g : Field} (hbefore : before tn target = some g)
    (hstart : NoStart tn target) (hnull : g.type = none → next tn target = none)
    (hcode : ∀ t, g.type = some t → LooksAt tn target g t → checkCode t.typeCode = .nothing)
    (hno : ¬ Hits tn target) : FieldMet tn target

/-! ## The loop -/

variable {base target prevOff : Nat} {fs : List Field} {prevVnl : Option Field}

/-- Fields before the target are passed. -/
theorem scanFields_append {gs : List Field} (h : ∀ f ∈ fs, Field.off f < target) :
    scanFields base (base + target) (fs ++ gs) prevOff prevVnl =
      scanFields base (base + target) gs ((fs.getLast?.map Field.off).getD prevOff)
        (fs.getLast?.or prevVnl) := by
  induction fs generalizing prevOff prevVnl with
  | nil => rfl
  | cons f fs ih =>
    have hlt : getFieldOffset f.node < target := h f List.mem_cons_self
    rw [List.cons_append, scanFields.eq_def]
    dsimp only
    rw [if_neg (by omega), if_neg (by omega), if_neg (by omega),
      ih fun g hg => h g (List.mem_cons_of_mem f hg)]
    cases hlast : fs.getLast? with
    | none =>
      obtain rfl := List.getLast?_eq_none_iff.mp hlast
      rfl
    | some g =>
      rw [List.getLast?_cons, hlast]
      rfl

/-- At the first field that is not before the target the loop ends. -/
theorem scanFields_cons {f : Field} (h : ¬ Field.off f < target) :
    scanFields base (base + target) (f :: fs) prevOff prevVnl =
      if Field.off f = target then some (.found f prevOff)
      else if prevOff < target then
        match prevVnl with
        | none => none
        | some vnl =>
          match vnl.type with
          | none => none
          | some type =>
            match checkCode type.typeCode with
            | .target => some (.found vnl prevOff)
            | .again => some (.inside vnl type)
            | .nothing => some (.done (Field.off f))
      else some (.done (Field.off f)) := by
  have hoff : getFieldOffset f.node = Field.off f := rfl
  rw [scanFields.eq_def]
  simp only [hoff]
  by_cases heq : Field.off f = target
  · rw [if_pos (by omega), if_pos heq]
  · rw [if_neg (by omega), if_neg heq, if_pos (show _ > _ by omega)]
    by_cases hprev : prevOff < target
    · rw [if_pos (by omega), if_pos hprev]
    · rw [if_neg (by omega), if_neg hprev]

/-! ## One level of the search -/

variable {tn t : TypeNode} {f g : Field}

theorem mem_before (h : before tn target = some g) : g ∈ tn.children ∧ Field.off g < target := by
  have hmem := List.mem_of_getLast? h
  exact ⟨(List.takeWhile_subset _ hmem), by simpa using List.mem_takeWhile_imp hmem⟩

theorem next_cons (h : next tn target = some f) : ∃ fs,
    tn.children.dropWhile (fun f => decide (Field.off f < target)) = f :: fs ∧
      ¬ Field.off f < target ∧ f ∈ tn.children := by
  unfold next at h
  cases hdrop : tn.children.dropWhile fun f => decide (Field.off f < target) with
  | nil =>
    rw [hdrop] at h
    cases h
  | cons f' fs =>
    rw [hdrop] at h
    obtain rfl := Option.some.inj h
    refine ⟨fs, rfl, ?_, ?_⟩
    · have hnot := List.head_dropWhile_not (fun f => decide (Field.off f < target))
        (hdrop ▸ List.cons_ne_nil f' fs)
      simpa [hdrop] using hnot
    · exact List.dropWhile_subset _ (hdrop ▸ List.mem_cons_self)

/-- **The loop over the fields of a type**, by the fields around the target. -/
theorem scanFields_children (tn : TypeNode) (base target : Nat) :
    scanFields base (base + target) tn.children 0 none =
      match next tn target with
      | none => some (.done (((before tn target).map Field.off).getD 0))
      | some f =>
        if Field.off f = target then
          some (.found f (((before tn target).map Field.off).getD 0))
        else
          match before tn target with
          | none => if 0 < target then none else some (.done (Field.off f))
          | some g =>
            match g.type with
            | none => none
            | some type =>
              match checkCode type.typeCode with
              | .target => some (.found g (Field.off g))
              | .again => some (.inside g type)
              | .nothing => some (.done (Field.off f)) := by
  have hsplit := List.takeWhile_append_dropWhile
    (p := fun f => decide (Field.off f < target)) (l := tn.children)
  have hlt : ∀ f ∈ tn.children.takeWhile fun f => decide (Field.off f < target),
      Field.off f < target := fun f hf => by simpa using List.mem_takeWhile_imp hf
  rw [← hsplit, scanFields_append hlt]
  show scanFields base (base + target)
    (tn.children.dropWhile fun f => decide (Field.off f < target))
    (((before tn target).map Field.off).getD 0) ((before tn target).or none) = _
  rw [Option.or_none]
  cases hnext : next tn target with
  | none =>
    rw [List.head?_eq_none_iff.mp hnext]
    rfl
  | some f =>
    obtain ⟨fs, hdrop, hge, -⟩ := next_cons hnext
    rw [hdrop, scanFields_cons hge]
    dsimp only
    by_cases heq : Field.off f = target
    · rw [if_pos heq, if_pos heq]
    · rw [if_neg heq, if_neg heq]
      cases hbefore : before tn target with
      | none => rfl
      | some g =>
        have hg := (mem_before hbefore).2
        rw [Option.map_some, Option.getD_some, if_pos hg]

/-- The field and `*base_off` of a search in a type. -/
def search (tn : TypeNode) (base target : Nat) : Option (Option Field × Nat) :=
  (calculateFieldOffset tn 0 base (base + target)).map fun r => (r.1, r.2.2)

theorem search_none (hscan : scanFields base (base + target) tn.children 0 none = none) :
    search tn base target = none := by
  unfold search
  rw [calculateFieldOffset]
  split <;> rename_i heq <;> rw [hscan] at heq <;> cases heq
  rfl

theorem search_found (hscan : scanFields base (base + target) tn.children 0 none =
    some (.found f prevOff)) : search tn base target = some (some f, base) := by
  unfold search
  rw [calculateFieldOffset]
  split <;> rename_i heq <;> rw [hscan] at heq <;> cases heq
  rfl

/-- A search that goes into a field behind the target. -/
theorem search_inside {base target off : Nat} (h : off ≤ target) :
    (calculateFieldOffset t 0 (base + off) (base + target)).map (fun r => (r.1, r.2.2)) =
      search t (base + off) (target - off) := by
  rw [search, Nat.add_assoc, Nat.add_sub_cancel' h]

theorem search_into (hscan : scanFields base (base + target) tn.children 0 none =
    some (.inside g t)) (hle : Field.off g ≤ target) :
    search tn base target = search t (base + Field.off g) (target - Field.off g) := by
  unfold search
  rw [calculateFieldOffset]
  split <;> rename_i heq <;> rw [hscan] at heq <;> cases heq
  exact search_inside hle

/-- A field that starts at the target is returned. -/
theorem search_start (base : Nat) (hnext : next tn target = some f) (hoff : Field.off f = target) :
    search tn base target = some (some f, base) := by
  have hscan := scanFields_children tn base target
  rw [hnext] at hscan
  dsimp only at hscan
  rw [if_pos hoff] at hscan
  exact search_found hscan

/-- The last field is looked at when the loop has found nothing. -/
theorem search_done (hscan : scanFields base (base + target) tn.children 0 none =
    some (.done prevOff)) :
    search tn base target =
      match tn.children.getLast? with
      | none => some (none, base)
      | some tmp =>
        match tmp.type with
        | none => some (none, base)
        | some type =>
          if Field.off tmp < target ∧ target < Field.off tmp + type.ofsize * BITS_PER_UNIT then
            match checkCode type.typeCode with
            | .target => some (some tmp, base)
            | .again => search type (base + Field.off tmp) (target - Field.off tmp)
            | .nothing => some (none, base)
          else some (none, base) := by
  unfold search
  rw [calculateFieldOffset]
  split <;> rename_i heq <;> rw [hscan] at heq <;> cases heq
  split
  · rename_i hlast
    rw [hlast]
    rfl
  · rename_i tmp hlast
    rw [hlast]
    dsimp only
    split
    · rename_i htype
      rw [htype]
      rfl
    · rename_i type htype
      rw [htype]
      dsimp only
      have hoff : getFieldOffset tmp.node = Field.off tmp := rfl
      rw [hoff]
      by_cases hin : Field.off tmp < target ∧
          target < Field.off tmp + type.ofsize * BITS_PER_UNIT
      · rw [if_pos (by omega), if_pos hin]
        cases checkCode type.typeCode with
        | target => rfl
        | again => exact search_inside (Nat.le_of_lt hin.1)
        | nothing => rfl
      · rw [if_neg (by omega), if_neg hin]
        rfl

/-- When no field is before the target and none starts there, nothing is found. -/
theorem search_empty (base : Nat) (hbefore : before tn target = none)
    (hstart : NoStart tn target) :
    search tn base target = if (next tn target).isSome ∧ 0 < target then none
      else some (none, base) := by
  have hscan := scanFields_children tn base target
  rw [hbefore] at hscan
  cases hnext : next tn target with
  | none =>
    rw [hnext] at hscan
    rw [search_done hscan, if_neg fun h => (by cases h.1)]
    have hnil : tn.children = [] := by
      rw [← List.takeWhile_append_dropWhile
        (p := fun f => decide (Field.off f < target)) (l := tn.children),
        List.getLast?_eq_none_iff.mp hbefore, List.head?_eq_none_iff.mp hnext]
      rfl
    rw [hnil]
    rfl
  | some f =>
    rw [hnext] at hscan
    dsimp only at hscan
    rw [if_neg (hstart f hnext)] at hscan
    by_cases hzero : 0 < target
    · rw [if_pos hzero] at hscan
      rw [if_pos ⟨rfl, hzero⟩]
      exact search_none hscan
    · rw [if_neg hzero] at hscan
      rw [search_done hscan, if_neg fun h => hzero h.2]
      split
      · rfl
      · split
        · rfl
        · rw [if_neg fun h => hzero (Nat.lt_of_le_of_lt (Nat.zero_le _) h.1)]

theorem TypeNode.Sorted.pairwise (h : tn.Sorted) :
    tn.children.Pairwise fun f g => Field.off f ≤ Field.off g := by
  cases h with
  | mk order => exact order

theorem TypeNode.Sorted.type (h : tn.Sorted) (hf : f ∈ tn.children) (ht : f.type = some t) :
    t.Sorted := by
  cases h with
  | mk _ types => exact types f hf t ht

/-- In the order of the offsets the last field is not before the next one. -/
theorem next_le_last (hsorted : tn.Sorted) (hnext : next tn target = some f)
    (hlast : tn.children.getLast? = some g) : Field.off f ≤ Field.off g := by
  obtain ⟨fs, hdrop, -, -⟩ := next_cons hnext
  have horder : (f :: fs).Pairwise fun f g => Field.off f ≤ Field.off g := by
    rw [← hdrop]
    exact hsorted.pairwise.sublist (List.dropWhile_sublist _)
  have hmem : g ∈ f :: fs := by
    rw [← List.takeWhile_append_dropWhile
      (p := fun f => decide (Field.off f < target)) (l := tn.children), hdrop,
      List.getLast?_append, List.getLast?_cons, Option.some_or, ← List.getLast?_cons] at hlast
    exact List.mem_of_getLast? hlast
  obtain rfl | hmem := List.mem_cons.mp hmem
  · exact Nat.le_refl _
  · exact (List.pairwise_cons.mp horder).1 g hmem

/-- Without a next field the last one is the one before the target. -/
theorem getLast?_of_next_none (hnext : next tn target = none) :
    tn.children.getLast? = before tn target := by
  rw [← List.takeWhile_append_dropWhile
    (p := fun f => decide (Field.off f < target)) (l := tn.children),
    List.head?_eq_none_iff.mp hnext, List.append_nil]
  rfl

/-- When the loop is done because of a field behind the target, nothing is found. -/
theorem search_done_next (hsorted : tn.Sorted) (hnext : next tn target = some f)
    (hoff : target < Field.off f)
    (hscan : scanFields base (base + target) tn.children 0 none = some (.done prevOff)) :
    search tn base target = some (none, base) := by
  rw [search_done hscan]
  split
  · rfl
  · rename_i tmp hlast
    have hle := next_le_last hsorted hnext hlast
    split
    · rfl
    · rw [if_neg fun h => by omega]

/-- The field before the target has no type. -/
theorem search_null (base : Nat) (hbefore : before tn target = some g)
    (hstart : NoStart tn target) (htype : g.type = none) :
    search tn base target = if (next tn target).isSome then none else some (none, base) := by
  have hscan := scanFields_children tn base target
  rw [hbefore] at hscan
  cases hnext : next tn target with
  | none =>
    rw [hnext] at hscan
    rw [search_done hscan, getLast?_of_next_none hnext, hbefore]
    simp only [htype]
    rfl
  | some f =>
    rw [hnext] at hscan
    simp only [if_neg (hstart f hnext), htype] at hscan
    exact search_none hscan

/-- The field before the target has a type, which is looked at or not. -/
theorem search_before (base : Nat) (hsorted : tn.Sorted) (hbefore : before tn target = some g)
    (hstart : NoStart tn target) (htype : g.type = some t) :
    (LooksAt tn target g t → search tn base target =
      match checkCode t.typeCode with
      | .target => some (some g, base)
      | .again => search t (base + Field.off g) (target - Field.off g)
      | .nothing => some (none, base)) ∧
    (¬ LooksAt tn target g t → search tn base target = some (none, base)) := by
  have hlt := (mem_before hbefore).2
  have hscan := scanFields_children tn base target
  rw [hbefore] at hscan
  cases hnext : next tn target with
  | none =>
    rw [hnext] at hscan
    have hlook : LooksAt tn target g t ↔
        Field.off g < target ∧ target < Field.off g + t.ofsize * BITS_PER_UNIT := by
      simp only [LooksAt, hnext, Option.isSome_none, Bool.false_eq_true, false_or, hlt, true_and]
    have heq := search_done hscan
    rw [getLast?_of_next_none hnext, hbefore] at heq
    simp only [htype] at heq
    rw [hlook]
    refine ⟨fun h => ?_, fun h => ?_⟩
    · rw [heq, if_pos h]
    · rw [heq, if_neg h]
  | some f =>
    rw [hnext] at hscan
    obtain ⟨-, -, hge, -⟩ := next_cons hnext
    have hne := hstart f hnext
    simp only [if_neg hne, htype] at hscan
    have hlook : LooksAt tn target g t := Or.inl (by rw [hnext]; rfl)
    refine ⟨fun _ => ?_, fun h => absurd hlook h⟩
    cases hcode : checkCode t.typeCode with
    | target =>
      rw [hcode] at hscan
      exact search_found hscan
    | again =>
      rw [hcode] at hscan
      exact search_into hscan (Nat.le_of_lt hlt)
    | nothing =>
      rw [hcode] at hscan
      exact search_done_next hsorted hnext (by omega) hscan

/-- The ways in which a search goes on. -/
theorem search_cases (base : Nat) (hsorted : tn.Sorted) (target : Nat) :
    (∃ f, next tn target = some f ∧ Field.off f = target ∧
      search tn base target = some (some f, base)) ∨
    (NoStart tn target ∧ before tn target = none ∧
      search tn base target = if (next tn target).isSome ∧ 0 < target then none
        else some (none, base)) ∨
    (∃ g, NoStart tn target ∧ before tn target = some g ∧ g.type = none ∧
      search tn base target = if (next tn target).isSome then none else some (none, base)) ∨
    ∃ g t, NoStart tn target ∧ before tn target = some g ∧ g.type = some t ∧
      (LooksAt tn target g t → search tn base target =
        match checkCode t.typeCode with
        | .target => some (some g, base)
        | .again => search t (base + Field.off g) (target - Field.off g)
        | .nothing => some (none, base)) ∧
      (¬ LooksAt tn target g t → search tn base target = some (none, base)) := by
  by_cases hstart : NoStart tn target
  · right
    cases hbefore : before tn target with
    | none => exact Or.inl ⟨hstart, rfl, search_empty base hbefore hstart⟩
    | some g =>
      cases htype : g.type with
      | none =>
        exact Or.inr (Or.inl ⟨g, hstart, rfl, htype, search_null base hbefore hstart htype⟩)
      | some t =>
        exact Or.inr (Or.inr ⟨g, t, hstart, rfl, htype,
          search_before base hsorted hbefore hstart htype⟩)
  · left
    simp only [NoStart, not_forall, not_not] at hstart
    obtain ⟨f, hnext, hoff⟩ := hstart
    exact ⟨f, hnext, hoff, search_start base hnext hoff⟩

/-! ## The whole search -/

theorem mem_fields (h : HasFields tn) : f ∈ tn.fields ↔ f ∈ tn.children := by
  rw [TypeNode.fields, if_pos h]

theorem checkCode_again {code : TypeCode} : checkCode code = .again ↔ code = .recordType := by
  cases code <;> simp [checkCode]

theorem mem_next (h : next tn target = some f) : f ∈ tn.children := by
  obtain ⟨-, -, -, hmem⟩ := next_cons h
  exact hmem

/-- A type that a search goes into is a record. -/
theorem hasFields_again (h : checkCode t.typeCode = .again) : HasFields t :=
  Or.inl (checkCode_again.mp h)

/-- A field that a search finds is in the type, with the offset that it gives. -/
theorem search_at {b : Nat} (hfields : HasFields tn) (hsorted : tn.Sorted)
    (h : search tn base target = some (some f, b)) :
    base ≤ b ∧ b - base ≤ target ∧ FieldAt tn (b - base) f := by
  induction hn : sizeOf tn using Nat.strong_induction_on generalizing tn base target with
  | _ n ih =>
  obtain ⟨f', hnext, -, hs⟩ | ⟨-, -, hs⟩ | ⟨g, -, -, -, hs⟩ | ⟨g, t, -, hbefore, htype, hs, hs'⟩ :=
    search_cases base hsorted target
  · rw [hs] at h
    cases h
    refine ⟨Nat.le_refl _, by omega, ?_⟩
    rw [Nat.sub_self]
    exact .child ((mem_fields hfields).mpr (mem_next hnext))
  · rw [hs] at h
    split at h <;> cases h
  · rw [hs] at h
    split at h <;> cases h
  · obtain ⟨hg, hlt⟩ := mem_before hbefore
    by_cases hlook : LooksAt tn target g t
    · rw [hs hlook] at h
      split at h
      · cases h
        refine ⟨Nat.le_refl _, by omega, ?_⟩
        rw [Nat.sub_self]
        exact .child ((mem_fields hfields).mpr hg)
      · rename_i hcode
        obtain ⟨hle, hb, hat⟩ := ih (sizeOf t) (hn ▸ sizeOf_type_lt hg htype)
          (hasFields_again hcode) (hsorted.type hg htype) h rfl
        refine ⟨by omega, by omega, ?_⟩
        rw [show b - base = Field.off g + (b - (base + Field.off g)) by omega]
        exact .nested ((mem_fields hfields).mpr hg) htype hat
      · cases h
    · rw [hs' hlook] at h
      cases h

/-- What the search gives from a start of the type, seen from there. -/
def Found (tn : TypeNode) (base target : Nat) : Option (Option Field × Nat) → Prop
  | none => False
  | some (vnl, b) => FieldFound tn target vnl (b - base)

/-- Before the first field there is none. -/
theorem not_hits_of_before (hfields : HasFields tn) (hsorted : tn.Sorted)
    (hbefore : before tn target = none) (hstart : NoStart tn target) : ¬ Hits tn target := by
  have hlt : ∀ g ∈ tn.children, target < Field.off g := by
    intro g hg
    have hdrop : tn.children.dropWhile (fun f => decide (Field.off f < target)) =
        tn.children := by
      have hsplit := List.takeWhile_append_dropWhile
        (p := fun f => decide (Field.off f < target)) (l := tn.children)
      rwa [List.getLast?_eq_none_iff.mp hbefore, List.nil_append] at hsplit
    cases hnext : next tn target with
    | none =>
      rw [← hdrop, List.head?_eq_none_iff.mp hnext] at hg
      cases hg
    | some f =>
      obtain ⟨fs, hcons, hge, -⟩ := next_cons hnext
      have hne := hstart f hnext
      have horder := hsorted.pairwise
      rw [← hdrop, hcons] at hg horder
      obtain rfl | hg := List.mem_cons.mp hg
      · omega
      · have hle := (List.pairwise_cons.mp horder).1 g hg
        omega
  rintro ⟨b, f, hat, hle, hcovers⟩
  cases hat with
  | child hf =>
    have := hlt f ((mem_fields hfields).mp hf)
    unfold Covers at hcovers
    omega
  | nested hg =>
    have := hlt _ ((mem_fields hfields).mp hg)
    omega

/-- Where a type in the type has no field at the target, its type has none. -/
theorem hits_of_nested (hfields : HasFields tn) (hg : g ∈ tn.children) (ht : g.type = some t)
    (hle : Field.off g ≤ target) (h : Hits t (target - Field.off g)) : Hits tn target := by
  obtain ⟨b, f, hat, hb, hcovers⟩ := h
  refine ⟨Field.off g + b, f, .nested ((mem_fields hfields).mpr hg) ht hat, by omega, ?_⟩
  rwa [Nat.sub_add_eq]

/-- **What a search in a field gives**, for the type of the field and for the type around it. -/
theorem found_nested (hfields : HasFields tn) (hsorted : tn.Sorted) (hg : g ∈ tn.children)
    (hlt : Field.off g < target) (ht : g.type = some t) (hcode : checkCode t.typeCode = .again) :
    Found tn base target (search t (base + Field.off g) (target - Field.off g)) ↔
      Found t (base + Field.off g) (target - Field.off g)
        (search t (base + Field.off g) (target - Field.off g)) ∧
      (Hits t (target - Field.off g) ∨ ¬ Hits tn target) := by
  have hnested : Hits t (target - Field.off g) → Hits tn target :=
    hits_of_nested hfields hg ht (Nat.le_of_lt hlt)
  cases hs : search t (base + Field.off g) (target - Field.off g) with
  | none => exact ⟨False.elim, fun h => h.1⟩
  | some r =>
    obtain ⟨_ | f, b⟩ := r
    · exact ⟨fun h => ⟨fun ht => h (hnested ht), Or.inr h⟩, fun h => h.2.resolve_left h.1⟩
    · obtain ⟨hb, hle, hat⟩ := search_at (hasFields_again hcode) (hsorted.type hg ht) hs
      have hbase : b - base = Field.off g + (b - (base + Field.off g)) := by omega
      have htarget : target - (b - base) =
          target - Field.off g - (b - (base + Field.off g)) := by omega
      simp only [Found, FieldFound]
      rw [htarget]
      constructor
      · rintro ⟨-, -, hcovers, hleaf⟩
        exact ⟨⟨hat, hle, hcovers, hleaf⟩, Or.inl ⟨_, f, hat, hle, hcovers⟩⟩
      · rintro ⟨⟨-, -, hcovers, hleaf⟩, -⟩
        refine ⟨?_, by omega, hcovers, hleaf⟩
        rw [hbase]
        exact .nested ((mem_fields hfields).mpr hg) ht hat

/-- Under the condition the search gives what is asked of it. -/
theorem found_of_met (h : FieldMet tn target) (hfields : HasFields tn) (hsorted : tn.Sorted)
    (base : Nat) : Found tn base target (search tn base target) := by
  induction h generalizing base with
  | @start tn target f hnext hoff hleaf =>
    rw [search_start base hnext hoff]
    refine ⟨?_, ?_, ?_, ?_⟩
    · rw [Nat.sub_self]
      exact .child ((mem_fields hfields).mpr (mem_next hnext))
    · omega
    · rw [Nat.sub_self]
      exact Or.inl hoff
    · intro t ht
      rw [show target - (base - base) - Field.off f = 0 by omega]
      exact hleaf t ht
  | @empty tn target hbefore hstart hzero =>
    rw [search_empty base hbefore hstart, if_neg]
    · exact not_hits_of_before hfields hsorted hbefore hstart
    · rintro ⟨hsome, hpos⟩
      obtain ⟨f, hnext⟩ := Option.isSome_iff_exists.mp hsome
      have := hzero f hnext
      omega
  | @leaf tn t target g hbefore hstart htype hlook hcode hcovers hleaf =>
    rw [(search_before base hsorted hbefore hstart htype).1 hlook, hcode]
    refine ⟨?_, by omega, ?_, ?_⟩
    · rw [Nat.sub_self]
      exact .child ((mem_fields hfields).mpr (mem_before hbefore).1)
    · rwa [Nat.sub_self]
    · intro t' ht'
      obtain rfl := Option.some.inj (htype.symm.trans ht')
      rwa [Nat.sub_self]
  | @record tn t target g hbefore hstart htype hlook hcode _ hhits ih =>
    obtain ⟨hg, hlt⟩ := mem_before hbefore
    rw [(search_before base hsorted hbefore hstart htype).1 hlook, hcode]
    exact (found_nested hfields hsorted hg hlt htype hcode).mpr
      ⟨ih (hasFields_again hcode) (hsorted.type hg htype) _, hhits⟩
  | @passed tn target g hbefore hstart hnull hcode hno =>
    cases htype : g.type with
    | none =>
      rw [search_null base hbefore hstart htype, if_neg]
      · exact hno
      · rw [hnull htype]
        exact Bool.false_ne_true
    | some t =>
      by_cases hlook : LooksAt tn target g t
      · rw [(search_before base hsorted hbefore hstart htype).1 hlook, hcode t htype hlook]
        exact hno
      · rw [(search_before base hsorted hbefore hstart htype).2 hlook]
        exact hno

/-- A search that gives what is asked of it has met the condition. -/
theorem met_of_found (hfields : HasFields tn) (hsorted : tn.Sorted)
    (h : Found tn base target (search tn base target)) : FieldMet tn target := by
  induction hn : sizeOf tn using Nat.strong_induction_on generalizing tn base target with
  | _ n ih =>
  obtain ⟨f, hnext, hoff, hs⟩ | ⟨hstart, hbefore, hs⟩ | ⟨g, hstart, hbefore, htype, hs⟩ |
    ⟨g, t, hstart, hbefore, htype, hs, hs'⟩ := search_cases base hsorted target
  · rw [hs] at h
    refine .start hnext hoff fun t ht => ?_
    have hleaf := h.2.2.2 t ht
    rwa [show target - (base - base) - Field.off f = 0 by omega] at hleaf
  · rw [hs] at h
    split at h
    · exact h.elim
    · rename_i hno
      refine .empty hbefore hstart fun f hnext => ?_
      by_contra hne
      exact hno ⟨by rw [hnext]; rfl, Nat.pos_of_ne_zero hne⟩
  · rw [hs] at h
    split at h
    · exact h.elim
    · rename_i hno
      have hnone : next tn target = none := by simpa using hno
      exact .passed hbefore hstart (fun _ => hnone)
        (fun t ht => by rw [htype] at ht; cases ht) h
  · by_cases hlook : LooksAt tn target g t
    · rw [hs hlook] at h
      cases hcode : checkCode t.typeCode with
      | target =>
        rw [hcode] at h
        obtain ⟨-, -, hcovers, hleaf⟩ := h
        rw [Nat.sub_self, Nat.sub_zero] at hcovers hleaf
        exact .leaf hbefore hstart htype hlook hcode hcovers (hleaf t htype)
      | again =>
        obtain ⟨hg, hlt⟩ := mem_before hbefore
        rw [hcode] at h
        obtain ⟨hin, hhits⟩ := (found_nested hfields hsorted hg hlt htype hcode).mp h
        exact .record hbefore hstart htype hlook hcode
          (ih (sizeOf t) (hn ▸ sizeOf_type_lt hg htype) (hasFields_again hcode)
            (hsorted.type hg htype) hin rfl) hhits
      | nothing =>
        rw [hcode] at h
        refine .passed hbefore hstart (fun hnone => ?_) (fun t' ht' _ => ?_) h
        · rw [htype] at hnone
          cases hnone
        · obtain rfl := Option.some.inj (htype.symm.trans ht')
          exact hcode
    · rw [hs' hlook] at h
      refine .passed hbefore hstart (fun hnone => ?_) (fun t' ht' hlook' => ?_) h
      · rw [htype] at hnone
        cases hnone
      · obtain rfl := Option.some.inj (htype.symm.trans ht')
        exact absurd hlook' hlook

/-- The search from the start of a layout. -/
theorem targetRight_iff_found :
    TargetRight tn target ↔ Found tn 0 target (search tn 0 target) := by
  have hfield : getTargetField1 (some tn) target =
      (calculateFieldOffset tn 0 0 target).map fun r => r.1 := rfl
  unfold TargetRight search
  rw [hfield, Nat.zero_add]
  cases calculateFieldOffset tn 0 0 target with
  | none => exact ⟨fun ⟨_, _, _, h, _⟩ => (by cases h), False.elim⟩
  | some r =>
    constructor
    · rintro ⟨vnl, prevOff, baseOff, h, -, hfound⟩
      cases h
      exact hfound
    · exact fun h => ⟨r.1, r.2.1, r.2.2, rfl, rfl, h⟩

/-- **The field at a target, exactly.** -/
theorem targetField_exact (layout : Layout) (target : Nat) :
    TargetRight layout.tn target ↔ FieldMet layout.tn target := by
  rw [targetRight_iff_found]
  exact ⟨met_of_found layout.hasFields layout.sorted,
    fun h => found_of_met h layout.hasFields layout.sorted 0⟩

/-! ## A field without a type -/

/-- `struct { int x; struct {} e; long y; }`, where the empty structure has no type node. -/
def emptyMemberNode : TypeNode :=
  .mk .recordType 16
    [⟨⟨some 0, some 0, 32⟩, some (.mk .integerType 4 [])⟩,
      ⟨⟨some 4, some 0, 0⟩, none⟩,
      ⟨⟨some 8, some 0, 64⟩, some (.mk .integerType 8 [])⟩]

theorem emptyMemberNode_sorted : emptyMemberNode.Sorted := by
  refine .mk (by simp [Field.off, getFieldOffset, BITS_PER_UNIT]) fun f hf t ht => ?_
  simp only [List.mem_cons, List.not_mem_nil, or_false] at hf
  obtain rfl | rfl | rfl := hf <;> cases ht <;>
    exact .mk List.Pairwise.nil fun f hf => (by cases hf)

theorem emptyMemberNode_hasFields : HasFields emptyMemberNode := Or.inl rfl

def emptyMember : Layout :=
  ⟨emptyMemberNode, emptyMemberNode_hasFields, emptyMemberNode_sorted⟩

/-- The search for a bit behind `e` reads the type of `e`. -/
theorem emptyMember_null : ¬ TargetRight emptyMember.tn 40 := by
  have hnext : next emptyMember.tn 40 =
      some ⟨⟨some 8, some 0, 64⟩, some (.mk .integerType 8 [])⟩ := rfl
  have hstart : NoStart emptyMember.tn 40 := by
    intro f hf
    obtain rfl := Option.some.inj (hnext.symm.trans hf)
    decide
  have hbefore : before emptyMember.tn 40 = some ⟨⟨some 4, some 0, 0⟩, none⟩ := rfl
  rw [targetRight_iff_found, search_null 0 hbefore hstart rfl, hnext]
  exact id

end Srcinv.Analysis.FieldOffset
