import Mathlib.Data.Nat.Basic
import Srcinv.Analysis.SinodeNames

/-!
# Sinode ids (`sinode_id`, `analysis/sinode.c`)

An id packs the type of a sinode and a number of 28 bits into 32 bits.  Each type has a counter;
`sinode_insert` links a sinode into the tree of its ids and then into the tree of its keys.

* `sinodeId_counterAt` — what a counter hands out, and that its test never fires.
* `sinodeInsert_eq`, `sinodeInsertSpec_cases` — how an insertion by key ends.
-/

namespace Srcinv.Analysis

open Srcinv.Lib

/-! ## Ids -/

/-- `enum sinode_type`: the types that have a tree of keys, and `TYPE_CODEP`. -/
inductive IdType where
  | spec (ty : SinodeType)
  | codep
  deriving DecidableEq, Repr

/-- The number of a type. -/
def IdType.code : IdType → Nat
  | .spec .file => 0
  | .spec .type => 1
  | .spec .funcGlobal => 2
  | .spec .funcStatic => 3
  | .spec .varGlobal => 4
  | .spec .varStatic => 5
  | .codep => 6

/-- The type with a number. -/
def IdType.ofCode : Nat → Option IdType
  | 0 => some (.spec .file)
  | 1 => some (.spec .type)
  | 2 => some (.spec .funcGlobal)
  | 3 => some (.spec .funcStatic)
  | 4 => some (.spec .varGlobal)
  | 5 => some (.spec .varStatic)
  | 6 => some .codep
  | _ => none

/-- `union siid`: two bit-fields, the number in the lower one. -/
structure Siid where
  idValue : Nat
  idType : Nat
  value_lt : idValue < 2 ^ 28
  type_lt : idType < 2 ^ 4
  deriving DecidableEq

/-- The two fields as one number of 32 bits. -/
def Siid.id1 (id : Siid) : Nat := id.idType * 2 ^ 28 + id.idValue

/-- The fields of a number of 32 bits. -/
def Siid.ofId1 (id1 : Nat) : Siid :=
  ⟨id1 % 2 ^ 28, id1 / 2 ^ 28 % 2 ^ 4, Nat.mod_lt _ (by decide), Nat.mod_lt _ (by decide)⟩

theorem IdType.code_lt (ty : IdType) : ty.code < 2 ^ 4 := by
  rcases ty with (_ | _ | _ | _ | _ | _) | _ <;> decide

theorem IdType.ofCode_code (ty : IdType) : IdType.ofCode ty.code = some ty := by
  rcases ty with (_ | _ | _ | _ | _ | _) | _ <;> rfl

theorem IdType.code_inj {ty ty' : IdType} (h : ty.code = ty'.code) : ty = ty' := by
  have hty := IdType.ofCode_code ty
  rw [h, IdType.ofCode_code] at hty
  exact (Option.some.inj hty).symm

theorem IdType.code_ofCode {n : Nat} {ty : IdType} (h : IdType.ofCode n = some ty) :
    ty.code = n := by
  unfold IdType.ofCode at h
  split at h <;> cases h <;> rfl

/-- The id of a type with a number. -/
def IdType.siid (ty : IdType) (v : Nat) : Siid :=
  ⟨v % 2 ^ 28, ty.code, Nat.mod_lt _ (by decide), ty.code_lt⟩

/-- `sinode_id` on the counter of a type: the id and the counter after it. -/
def sinodeId (ty : IdType) (typeId : Siid) : Option (Siid × Siid) :=
  if typeId.idValue = 2 ^ 64 - 1 then none
  else
    let typeId :=
      if typeId.idValue = 0 then { typeId with idType := ty.code, type_lt := ty.code_lt }
      else typeId
    some (typeId, { typeId with
      idValue := (typeId.idValue + 1) % 2 ^ 28
      value_lt := Nat.mod_lt _ (by decide) })

/-! ## The store -/

/-- The store with its ids.  A sinode may have no name.  The number of ids each type has handed out
    and the sinodes that were inserted are histories that the code does not keep. -/
structure IdStore where
  st : SinodeStore
  named : Nat → Bool
  nodeId : Nat → Siid
  idIdx : IdType → Siid
  idTrees : IdType → SearchTree Nat
  issued : IdType → Nat
  inserted : List Nat

variable (s : IdStore) (R Rid : Recolor)

/-- `sinode_new`, with the fields its callers fill in. -/
def newSinode (ty : IdType) (name : Option Name) (data : SinodeData) : Option IdStore :=
  (sinodeId ty (s.idIdx ty)).map fun (id, typeId) =>
    let specType := match ty with
      | .spec ty => ty
      | .codep => .file  -- plays no part
    { s with
      st := s.st.alloc { sinodeNew specType (name.getD []) with toSinodeData := data }
      named := Function.update s.named s.st.next name.isSome
      nodeId := Function.update s.nodeId s.st.next id
      idIdx := Function.update s.idIdx ty typeId
      issued := Function.update s.issued ty (s.issued ty + 1) }

/-- A step of the walks by id. -/
def cmpId (id : Siid) (p : Nat) : Ordering := compare (s.nodeId p).id1 id.id1

/-- `sinode_search_by_id`; an id of no type would leave the array of trees. -/
def sinodeSearchById (id : Siid) : Option Nat :=
  match IdType.ofCode id.idType with
  | some ty => (s.idTrees ty).find (cmpId s id)
  | none => none

/-- `sinode_insert_by_id`. -/
def sinodeInsertById (ty : IdType) (p : Nat) : Option IdStore :=
  ((s.idTrees ty).link (cmpId s (s.nodeId p)) p).map fun t =>
    { s with idTrees := Function.update s.idTrees ty (Rid.run p t) }

/-- The walk into the tree of keys looks at the names only. -/
def replacesByName (ty : SinodeType) (behavior : Behavior) : Bool :=
  match behavior, ty with
  | .replace, .funcGlobal | .replace, .varGlobal | .replace, .funcStatic => true
  | _, _ => false

/-- The walk into the tree of keys. -/
def specWalk (st : SinodeStore) (p : Nat) (behavior : Behavior) : Nat → Ordering :=
  if replacesByName (st.sn p).type behavior then cmpName st (st.sn p).name
  else keyWalk st (st.sn p)

/-- The walk meets a sinode. -/
def meets (st : SinodeStore) (p : Nat) (behavior : Behavior) : Bool :=
  ((st.trees (st.sn p).type).find (specWalk st p behavior)).isSome

/-- The functions that walk by the place stop without one. -/
def hasPlace (sn : Sinode) (behavior : Behavior) : Bool :=
  match sn.type with
  | .file | .funcGlobal | .varGlobal => true
  | .type | .varStatic => sn.locFile.isSome
  | .funcStatic => replacesByName .funcStatic behavior || sn.locFile.isSome

/-- A walk that meets an equal key returns -1; in `_sinode_insert_name_resfile` it is a `BUG`. -/
def clashReturns (ty : SinodeType) (behavior : Behavior) : Bool :=
  match ty with
  | .file | .type | .varStatic => true
  | .funcStatic => !replacesByName .funcStatic behavior
  | .funcGlobal | .varGlobal => false

/-- The second half of `sinode_insert`, and what it returns.  A sinode counts as inserted unless
    its data were exchanged with those of a linked one. -/
def sinodeInsertSpec (ty : IdType) (p : Nat) (behavior : Behavior) : Option (IdStore × Int) :=
  match ty with
  | .codep => some ({ s with inserted := p :: s.inserted }, 0)
  | .spec _ =>
    if !s.named p then none
    else match sinodeInsert s.st R p behavior with
      | some st =>
        let exchanged := replacesByName (s.st.sn p).type behavior && meets s.st p behavior
        some ({ s with
          st
          inserted := if exchanged then s.inserted else p :: s.inserted }, 0)
      | none =>
        if clashReturns (s.st.sn p).type behavior && hasPlace (s.st.sn p) behavior then
          some (s, -1)
        else none

/-- `sinode_insert`, and what it returns. -/
def sinodeInsertId (p : Nat) (behavior : Behavior) : Option (IdStore × Int) :=
  match IdType.ofCode (s.nodeId p).idType with
  | none => none
  | some ty =>
    match behavior with
    | .replace => sinodeInsertSpec s R ty p .replace
    | .none =>
      match sinodeInsertById s Rid ty p with
      | none => some (s, -1)
      | some s => sinodeInsertSpec s R ty p .none

/-- The types `sinode_match` goes through. -/
def matchTypes (type : String) : List IdType :=
  match type with
  | "var" => [.spec .varGlobal, .spec .varStatic]
  | "var_global" => [.spec .varGlobal]
  | "var_static" => [.spec .varStatic]
  | "func" => [.spec .funcGlobal, .spec .funcStatic]
  | "func_global" => [.spec .funcGlobal]
  | "func_static" => [.spec .funcStatic]
  | "type" => [.spec .type]
  | _ => []

/-- `__sinode_match`: the sinodes that are given to the callback. -/
def sinodeMatchType (ty : IdType) : List Nat :=
  (List.range' (ty.code * 2 ^ 28) ((s.idIdx ty).id1 - ty.code * 2 ^ 28)).filterMap fun id =>
    sinodeSearchById s (Siid.ofId1 id)

/-- `sinode_match`. -/
def sinodeMatch (type : String) : List Nat := (matchTypes type).flatMap (sinodeMatchType s)

inductive IdEvent where
  | new (ty : IdType) (name : Option Name) (data : SinodeData)
  | insert (p : Nat) (behavior : Behavior)

/-- A call and what it returns. -/
def idCall : IdEvent → Option (IdStore × Int)
  | .new ty name data => (newSinode s ty name data).map fun s' => (s', 0)
  | .insert p behavior => if p < s.st.next then sinodeInsertId s R Rid p behavior else none

def idStep (e : IdEvent) : Option IdStore := (idCall s R Rid e).map Prod.fst

/-- The empty store. -/
def IdStore.empty : IdStore where
  st := ⟨fun _ => sinodeNew .file [], 0, fun _ => .nil, none, []⟩
  named _ := false
  nodeId _ := ⟨0, 0, by decide, by decide⟩
  idIdx _ := ⟨0, 0, by decide, by decide⟩
  idTrees _ := .nil
  issued _ := 0
  inserted := []

/-! ## The packed ids -/

theorem Siid.id1_inj {id id' : Siid} (h : id.id1 = id'.id1) : id = id' := by
  obtain ⟨v, t, hv, ht⟩ := id
  obtain ⟨v', t', hv', ht'⟩ := id'
  simp only [Siid.id1] at h
  obtain rfl : v = v' := by omega
  obtain rfl : t = t' := by omega
  rfl

theorem Siid.id1_ofId1 {id1 : Nat} (h : id1 < 2 ^ 32) : (Siid.ofId1 id1).id1 = id1 := by
  simp only [Siid.ofId1, Siid.id1]
  omega

theorem IdType.siid_id1 (ty : IdType) {v : Nat} (h : v < 2 ^ 28) :
    (ty.siid v).id1 = ty.code * 2 ^ 28 + v := by
  simp only [IdType.siid, Siid.id1]
  omega

theorem IdType.siid_inj {ty ty' : IdType} {v v' : Nat} (hv : v < 2 ^ 28) (hv' : v' < 2 ^ 28)
    (h : ty.siid v = ty'.siid v') : ty = ty' ∧ v = v' := by
  have hty : ty.code = ty'.code := congrArg Siid.idType h
  have hval : v % 2 ^ 28 = v' % 2 ^ 28 := congrArg Siid.idValue h
  rw [Nat.mod_eq_of_lt hv, Nat.mod_eq_of_lt hv'] at hval
  exact ⟨IdType.code_inj hty, hval⟩

/-- The counter of a type that has handed out `v` ids. -/
def counterAt (ty : IdType) (v : Nat) : Siid :=
  if v = 0 then ⟨0, 0, by decide, by decide⟩ else ty.siid v

/-- **The `v`-th id of a type has the value `v`, as long as `v` fits 28 bits.**  The test for the
    last id compares the 28 bits with a number they never reach. -/
theorem sinodeId_counterAt (ty : IdType) (v : Nat) :
    sinodeId ty (counterAt ty v) = some (ty.siid v, counterAt ty (v + 1)) := by
  have hne : ∀ id : Siid, id.idValue ≠ 2 ^ 64 - 1 := fun id hid => by
    have := id.value_lt
    omega
  unfold sinodeId
  rw [if_neg (hne _)]
  by_cases hv : v = 0
  · subst hv
    rfl
  · have hsucc : v + 1 ≠ 0 := Nat.succ_ne_zero v
    simp only [counterAt, hv, hsucc, if_false, IdType.siid]
    by_cases hmod : v % 2 ^ 28 = 0
    · simp only [hmod, if_true, Option.some.injEq, Prod.mk.injEq, Siid.mk.injEq, true_and,
        and_true]
      omega
    · simp only [hmod, if_false, Option.some.injEq, Prod.mk.injEq, Siid.mk.injEq, true_and,
        and_true]
      omega

/-! ## The tree of keys -/

variable {st st' : SinodeStore} {R : Recolor} {p : Nat} {behavior : Behavior}

theorem linkNode_isSome {probe : Nat → Ordering} : (linkNode st R probe p).isSome ↔
    (st.trees (st.sn p).type).find probe = none := by
  unfold linkNode
  rw [Option.isSome_map]
  exact SearchTree.link_isSome_iff

/-- **An insertion by key stops without a place, exchanges data with a sinode of the name, or
    links the sinode where its walk ends.** -/
theorem sinodeInsert_eq (st : SinodeStore) (R : Recolor) (p : Nat) (behavior : Behavior) :
    sinodeInsert st R p behavior =
      if hasPlace (st.sn p) behavior = false then none
      else if replacesByName (st.sn p).type behavior && meets st p behavior then
        sinodeInsertNameResfile st R p .replace
      else linkNode st R (specWalk st p behavior) p := by
  cases behavior with
  | none =>
    have hname : ∀ ty, replacesByName ty .none = false := fun ty => by cases ty <;> rfl
    simp only [hname, Bool.false_and, Bool.false_eq_true, if_false, specWalk, keyWalk, hasPlace]
    cases hty : (st.sn p).type with
    | file => simp [sinodeInsert, sinodeInsertFile, hty]
    | funcGlobal | varGlobal => simp [sinodeInsert, sinodeInsertNameResfile, hty]
    | type | varStatic | funcStatic =>
      cases hloc : (st.sn p).locFile <;>
      simp [sinodeInsert, sinodeInsertNameLoc, hty, hloc]
  | replace =>
    have hmeets : replacesByName (st.sn p).type .replace = true →
        meets st p .replace = ((st.trees (st.sn p).type).find (cmpName st (st.sn p).name)).isSome :=
      fun h => by simp [meets, specWalk, h]
    have hresfile : replacesByName (st.sn p).type .replace = true →
        sinodeInsertNameResfile st R p .replace =
          if replacesByName (st.sn p).type .replace && meets st p .replace then
            sinodeInsertNameResfile st R p .replace
          else linkNode st R (specWalk st p .replace) p := by
      intro h
      rw [hmeets h, h, Bool.true_and]
      cases hfind : (st.trees (st.sn p).type).find (cmpName st (st.sn p).name) with
      | some q => rfl
      | none => simp [sinodeInsertNameResfile, hfind, specWalk, h]
    cases hty : (st.sn p).type with
    | file =>
      simp [sinodeInsert, sinodeInsertFile, hty, hasPlace, replacesByName, specWalk, keyWalk]
    | funcGlobal | varGlobal | funcStatic =>
      rw [hty] at hresfile
      simp only [sinodeInsert, hty, hasPlace]
      exact hresfile rfl
    | type | varStatic =>
      cases hloc : (st.sn p).locFile <;>
      simp [sinodeInsert, sinodeInsertNameLoc, hty, hloc, hasPlace, replacesByName, specWalk,
        keyWalk]

/-- An insertion by key moves no pointer to another type. -/
theorem sinodeInsert_types (h : sinodeInsert st R p behavior = some st') :
    st'.next = st.next ∧ ∀ q, (st'.sn q).type = (st.sn q).type := by
  rw [sinodeInsert_eq] at h
  split at h
  · cases h
  split at h
  · simp only [sinodeInsertNameResfile] at h
    split at h
    · split at h
      · cases h
      cases h
      refine ⟨rfl, fun q => ?_⟩
      simp only [sinodeInsertDoReplace, Function.update_apply]
      split
      · rename_i hq
        rw [hq]
      split
      · rename_i hq
        rw [hq]
      · rfl
    · obtain ⟨hsn, hnext, -, -⟩ := linkNode_sn h
      exact ⟨hnext, fun q => by rw [hsn]⟩
  · obtain ⟨hsn, hnext, -, -⟩ := linkNode_sn h
    exact ⟨hnext, fun q => by rw [hsn]⟩

variable {s s' : IdStore} {Rid : Recolor} {ty : IdType} {r : Int}

/-- **How the second half of an insertion ends**: at a sinode of the key, by exchanging data with
    one of the name, or by linking the sinode. -/
theorem sinodeInsertSpec_cases {t : SinodeType}
    (h : sinodeInsertSpec s R (.spec t) p behavior = some (s', r)) :
    s.named p = true ∧ hasPlace (s.st.sn p) behavior = true ∧
      ((r = -1 ∧ s' = s ∧ meets s.st p behavior = true ∧
          replacesByName (s.st.sn p).type behavior = false ∧
          clashReturns (s.st.sn p).type behavior = true) ∨
        ∃ st', sinodeInsert s.st R p behavior = some st' ∧ r = 0 ∧
          ((s' = { s with st := st' } ∧ meets s.st p behavior = true ∧
              replacesByName (s.st.sn p).type behavior = true) ∨
            (s' = { s with st := st', inserted := p :: s.inserted } ∧
              meets s.st p behavior = false))) := by
  unfold sinodeInsertSpec at h
  simp only at h
  split at h
  · cases h
  rename_i hnamed
  have hnamed' : s.named p = true := by simpa using hnamed
  have heq := sinodeInsert_eq s.st R p behavior
  split at h
  · rename_i st' hins
    rw [hins] at heq
    have hplace : hasPlace (s.st.sn p) behavior = true := by
      by_contra hno
      rw [if_pos (by simpa using hno)] at heq
      cases heq
    refine ⟨hnamed', hplace, Or.inr ⟨st', hins, ?_⟩⟩
    rw [if_neg (by simp [hplace])] at heq
    cases hname : replacesByName (s.st.sn p).type behavior with
    | false =>
      simp only [hname, Bool.false_and, Bool.false_eq_true, if_false] at h heq
      cases h
      refine ⟨rfl, Or.inr ⟨rfl, ?_⟩⟩
      have hfind := linkNode_isSome.mp (by rw [← heq]; rfl)
      simp [meets, hfind]
    | true =>
      simp only [hname, Bool.true_and] at h
      cases hmeets : meets s.st p behavior with
      | false =>
        simp only [hmeets, Bool.false_eq_true, if_false] at h
        cases h
        exact ⟨rfl, Or.inr ⟨rfl, rfl⟩⟩
      | true =>
        simp only [hmeets, if_true] at h
        cases h
        exact ⟨rfl, Or.inl ⟨rfl, rfl, rfl⟩⟩
  · rename_i hins
    split at h
    · rename_i hclash
      rw [Bool.and_eq_true] at hclash
      cases h
      refine ⟨hnamed', hclash.2, Or.inl ⟨rfl, rfl, ?_, ?_, hclash.1⟩⟩
      · rw [hins, if_neg (by simp [hclash.2])] at heq
        by_contra hmeets
        have hfind : (s.st.trees (s.st.sn p).type).find (specWalk s.st p behavior) = none := by
          simpa [meets] using hmeets
        have hsome := linkNode_isSome (R := R).mpr hfind
        rw [if_neg (by simp [hmeets])] at heq
        rw [← heq] at hsome
        cases hsome
      · revert hclash
        cases behavior <;> cases (s.st.sn p).type <;> simp [replacesByName, clashReturns]
    · cases h

/-- A sinode that meets none of its key is linked. -/
theorem sinodeInsertSpec_link {t : SinodeType} (R : Recolor) (hnamed : s.named p = true)
    (hplace : hasPlace (s.st.sn p) behavior = true) (hmeets : meets s.st p behavior = false) :
    ∃ st', sinodeInsertSpec s R (.spec t) p behavior =
      some ({ s with st := st', inserted := p :: s.inserted }, 0) := by
  have hfind : (s.st.trees (s.st.sn p).type).find (specWalk s.st p behavior) = none := by
    simpa [meets] using hmeets
  obtain ⟨st', hlink⟩ := Option.isSome_iff_exists.mp (linkNode_isSome (R := R).mpr hfind)
  have hins : sinodeInsert s.st R p behavior = some st' := by
    rw [sinodeInsert_eq, if_neg (by simp [hplace]), if_neg (by simp [hmeets])]
    exact hlink
  refine ⟨st', ?_⟩
  simp [sinodeInsertSpec, hnamed, hins, hmeets]

/-- A sinode that meets one of its key is refused. -/
theorem sinodeInsertSpec_clash {t : SinodeType} (R : Recolor) (hnamed : s.named p = true)
    (hplace : hasPlace (s.st.sn p) .none = true) (hmeets : meets s.st p .none = true)
    (hclash : clashReturns (s.st.sn p).type .none = true) :
    sinodeInsertSpec s R (.spec t) p .none = some (s, -1) := by
  have hname : replacesByName (s.st.sn p).type .none = false := by
    cases (s.st.sn p).type <;> rfl
  have hins : sinodeInsert s.st R p .none = none := by
    rw [sinodeInsert_eq, if_neg (by simp [hplace]), if_neg (by simp [hname])]
    by_contra hne
    have hfind := linkNode_isSome.mp (Option.ne_none_iff_isSome.mp hne)
    simp [meets, hfind] at hmeets
  simp [sinodeInsertSpec, hnamed, hins, hclash, hplace]

end Srcinv.Analysis
