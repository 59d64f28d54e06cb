import Srcinv.Analysis.DataState

/-!
# Initialising and reading values (`analysis/gcc/c.cc`)

`dsv_init` gives a value that was never written a first content by the type of its node;
`get_ds_val` follows the references to the value that is meant, and initialises it if need be.

A type is a tree: the fields of a record and the elements of an array are stored in place.  What
`s_random` returns is a function of the place that is initialised.  The initialiser of a variable
(`dsv_fill`) is a parameter of which only the effect at the top of the value is known.
-/

namespace Srcinv.Analysis

/-! ## Types -/

/-- A `FIELD_DECL`: its node, its place in bits and its type. -/
structure TypeField (α : Type) where
  raw : Nat
  offset : Nat
  bits : Nat
  type : α

/-- The types that `dsv_init` tells apart; a scalar has a size. -/
inductive GccType where
  | record (isUnion : Bool) (bytes : Nat) (fields : List (TypeField GccType))
  | array (bytes : Nat) (maxValue : Option Nat) (elemRaw elemBytes : Nat) (elem : GccType)
  | boolean
  | enumeral (values : List Int)
  | number (type : Sec1) (bytes : { n : Nat // 0 < n })
  | pointer (bytes : { n : Nat // 0 < n })
  | other

/-- `elem_cnt` of an array, a `size_t`. -/
def elemCnt : Option Nat → Nat
  | none => 1
  | some maxValue => (1 + maxValue) % 2 ^ 64

/-- A type whose values have no elements. -/
def GccType.isEmpty : GccType → Bool
  | record _ _ fields => fields.isEmpty
  | array _ maxValue _ _ _ => elemCnt maxValue = 0
  | _ => false

/-- The bytes of an integer, the lowest first. -/
def intBytes (bytes : Nat) (x : Int) : List Nat :=
  (List.range bytes).map fun i => (x / 256 ^ i % 256).toNat

/-! ## Initialising -/

/-- The loop over the elements of an array; it stops at the first that fails. -/
def dsvInitElems (bits : Nat) (init : Nat → DataStateVal × Bool) :
    Nat → Nat → List (DataStateVal1 DataStateVal) × Bool
  | 0, _ => ([], false)
  | n + 1, i =>
    let (val, err) := init i
    if err then ([⟨s32 (i * bits), bits, val⟩], true)
    else
      let (v3, err') := dsvInitElems bits init n (i + 1)
      (⟨s32 (i * bits), bits, val⟩ :: v3, err')

mutual
/-- `dsv_init` by the type of the node: the value, and whether it failed. -/
def dsvInitType (rand : List Nat → Nat) :
    GccType → List Nat → DataStateVal → DataStateVal × Bool
  | .record isUnion bytes fields, path, v =>
    let (v3, err) := dsvInitFields rand fields path 0
    (.sec3 v.raw isUnion bytes v3, err)
  | .array bytes maxValue elemRaw elemBytes elem, path, v =>
    let (v3, err) := dsvInitElems (u32 (elemBytes * BITS_PER_UNIT))
      (fun i => dsvInitType rand elem (path ++ [i]) (.unk elemRaw)) (elemCnt maxValue) 0
    (.sec3 v.raw false bytes v3, err)
  | .boolean, path, v => (.sec1 v.raw .intCst (intBytes 4 (rand path % 2)), false)
  | .enumeral values, path, v =>
    let value := values.getD (rand path % values.length) (rand path)
    (.sec1 v.raw .intCst (intBytes 4 value), false)
  | .number type bytes, _, v => (.sec1 v.raw type (List.replicate bytes 0), false)
  | .pointer bytes, _, v => (.sec1 v.raw .intCst (List.replicate bytes 0), false)
  | .other, _, v => (v, true)

/-- The loop over the fields of a record. -/
def dsvInitFields (rand : List Nat → Nat) :
    List (TypeField GccType) → List Nat → Nat → List (DataStateVal1 DataStateVal) × Bool
  | [], _, _ => ([], false)
  | ⟨raw, offset, bits, type⟩ :: fields, path, i =>
    let (val, err) := dsvInitType rand type (path ++ [i]) (.unk raw)
    if err then ([⟨s32 offset, bits, val⟩], true)
    else
      let (v3, err') := dsvInitFields rand fields path (i + 1)
      (⟨s32 offset, bits, val⟩ :: v3, err')
end

/-- What `dsv_init` reads of a node: whether it is an SSA name that is not defined by a statement of
    the function (a default definition, `GIMPLE_NOP`), and its type. -/
structure RawNode where
  ssaOutside : Bool
  type : GccType

/-- The nodes, and what `dsv_fill` makes of a value that `dsv_init` has allocated: a value with a
    content keeps one, a constructor without elements has nothing to fill, and no reference comes
    in. -/
structure DataEnv where
  node : Nat → RawNode
  fill : Nat → DataStateVal → DataStateVal
  fill_set : ∀ raw v, v.isUnset = false → (fill raw v).isUnset = false
  fill_raw : ∀ raw v, (fill raw v).isUnset = true → (fill raw v).raw = v.raw
  fill_empty : ∀ raw r s n, fill raw (.sec3 r s n []) = .sec3 r s n []
  fill_ref : ∀ raw v, (fill raw v).refTarget = none ∨ (fill raw v).refTarget = v.refTarget

/-- All nodes are of one type, and nothing is filled in. -/
def plainEnv (type : GccType) : DataEnv where
  node _ := ⟨false, type⟩
  fill _ v := v
  fill_set _ _ h := h
  fill_raw _ _ _ := rfl
  fill_empty _ _ _ _ := rfl
  fill_ref _ _ := Or.inr rfl

variable (E : DataEnv) (rand : List Nat → Nat)

/-- `dsv_init` of the value `v` at `t`.  `do_dec` of a `GIMPLE_NOP` succeeds and writes nothing. -/
def dsvInit (h : DsHeap) (t : DsvLoc) (v : DataStateVal) : DsHeap × Bool :=
  if (E.node v.raw).ssaOutside then (h, false)
  else
    let (w, err) := dsvInitType rand (E.node v.raw).type [] v
    (h.set t (E.fill v.raw w), err)

/-! ## Reading -/

def DSV_FIND_ARG_MAX_RESULT : Nat := 16

/-- `struct dsv_find_arg`: the places of the values in a constructor, and their number in one
    byte. -/
structure DsvFindArg where
  vals : Nat → Option (List Nat)
  retCnt : Nat

namespace DsvFindArg

/-- `{NULL}`. -/
def empty : DsvFindArg := ⟨fun _ => none, 0⟩

/-- `dsv_find_arg_add` -/
def add (arg : DsvFindArg) (path : List Nat) : DsvFindArg where
  vals :=
    if arg.retCnt < DSV_FIND_ARG_MAX_RESULT then Function.update arg.vals arg.retCnt (some path)
    else arg.vals
  retCnt := (arg.retCnt + 1) % 256

/-- The calls of `dsv_find_arg_add`. -/
def addAll (paths : List (List Nat)) : DsvFindArg := paths.foldl add empty

/-- The entries that a loop up to `ret_cnt` reads. -/
def listed (arg : DsvFindArg) : List (List Nat) := (List.range arg.retCnt).filterMap arg.vals

end DsvFindArg

/-- `dsv_find_constructor_elem`: the paths that are noted, and whether it failed. -/
def dsvFindConstructorElem (v : DataStateVal) (offset : Int) (bits : Nat) :
    List (List Nat) × Bool :=
  if offset = 0 ∧ bits = 0 then ([], false) else v.findConstructorElem offset bits

/-- What `get_ds_val` takes from a constructor. -/
def findArg (v : DataStateVal) (offset : Int) (bits : Nat) : Option DsvFindArg :=
  let (paths, err) := dsvFindConstructorElem v offset bits
  let arg := DsvFindArg.addAll paths
  if ¬ err ∧ arg.retCnt = 0 then some (arg.add [])
  else if arg.retCnt > DSV_FIND_ARG_MAX_RESULT then none
  else if err then none
  else some arg

/-- The places of the entries. -/
def findVals (t : DsvLoc) (v : DataStateVal) (offset : Int) (bits : Nat) : Option (List DsvLoc) :=
  (findArg v offset bits).map fun arg => arg.listed.map fun path => ⟨t.ds, t.path ++ path⟩

/-- No offset and no bits: the constructor itself. -/
theorem findVals_zero (t : DsvLoc) (v : DataStateVal) : findVals t v 0 0 = some [t] := by
  have hlisted : (DsvFindArg.empty.add []).listed = [[]] := by decide
  have harg : findArg v 0 0 = some (DsvFindArg.empty.add []) := rfl
  rw [findVals, harg, Option.map_some, hlisted]
  simp only [List.map_cons, List.append_nil, List.map_nil]

/-- `get_ds_val`: the values that are meant, or an error.  `fuel` bounds the recursion. -/
def getDsVal : Nat → DsHeap → DsvLoc → Int → Nat → Option (DsHeap × Option (List DsvLoc))
  | 0, _, _, _, _ => none
  | fuel + 1, h, t, offset, bits =>
    match h.get? t with
    | none => some (h, none)
    | some v =>
      if v.isUnset then
        let (h', err) := dsvInit E rand h t v
        if err then some (h', none) else getDsVal fuel h' t offset bits
      else
        match v with
        | .sec2 _ .ref v2 =>
          match v2.ds with
          | none => some (h, none)
          | some ds => getDsVal fuel h (dsVal ds) v2.offset v2.bits
        | .sec3 raw subtype total v3 =>
          some (h, findVals t (.sec3 raw subtype total v3) offset bits)
        | _ => some (h, some [t])

/-- `get_ds_val` of a data state comes back. -/
def Returns (h : DsHeap) (ds : Nat) (offset : Int) (bits : Nat) : Prop :=
  ∃ fuel, (getDsVal E rand fuel h (dsVal ds) offset bits).isSome

/-! ## What `dsv_init` leaves -/

variable {E} {rand} {h : DsHeap}

/-- A value of a type that is not empty gets a content, or `dsv_init` fails. -/
theorem dsvInitType_settled (rand : List Nat → Nat) {type : GccType} (hne : type.isEmpty = false)
    (path : List Nat) (v : DataStateVal) : (dsvInitType rand type path v).2 = true ∨
      (dsvInitType rand type path v).1.isUnset = false ∧
        (dsvInitType rand type path v).1.refTarget = none := by
  cases type with
  | record isUnion bytes fields =>
    refine Or.inr ⟨?_, by rw [dsvInitType]; rfl⟩
    cases fields with
    | nil => cases hne
    | cons field fields =>
      rw [dsvInitType, dsvInitFields]
      by_cases herr : (dsvInitType rand field.type (path ++ [0]) (.unk field.raw)).2
      · simp only [herr, if_true]
        rfl
      · simp only [herr]
        rfl
  | array bytes maxValue elemRaw elemBytes elem =>
    refine Or.inr ⟨?_, by rw [dsvInitType]; rfl⟩
    have hcnt : elemCnt maxValue ≠ 0 := of_decide_eq_false hne
    obtain ⟨n, hn⟩ := Nat.exists_eq_succ_of_ne_zero hcnt
    rw [dsvInitType, hn, dsvInitElems]
    by_cases herr : (dsvInitType rand elem (path ++ [0]) (.unk elemRaw)).2
    · simp only [herr, if_true]
      rfl
    · simp only [herr]
      rfl
  | other => exact Or.inl (by rw [dsvInitType])
  | _ => exact Or.inr (by rw [dsvInitType]; exact ⟨rfl, rfl⟩)

/-- A value of an empty type gets a constructor without elements. -/
theorem dsvInitType_empty (rand : List Nat → Nat) {type : GccType} (he : type.isEmpty = true)
    (path : List Nat)
    (v : DataStateVal) :
    ∃ s n, dsvInitType rand type path v = (.sec3 v.raw s n [], false) := by
  cases type with
  | record isUnion bytes fields =>
    obtain rfl := List.isEmpty_iff.mp he
    exact ⟨isUnion, bytes, by rw [dsvInitType, dsvInitFields]⟩
  | array bytes maxValue elemRaw elemBytes elem =>
    have hcnt : elemCnt maxValue = 0 := of_decide_eq_true he
    exact ⟨false, bytes, by rw [dsvInitType, hcnt, dsvInitElems]⟩
  | _ => cases he

theorem dsvInitType_frame (rand : List Nat → Nat) (type : GccType) (path : List Nat)
    (v : DataStateVal) :
    (dsvInitType rand type path v).1.raw = v.raw ∧
      ((dsvInitType rand type path v).1.refTarget = none ∨
        (dsvInitType rand type path v).1.refTarget = v.refTarget) := by
  cases type with
  | other => rw [dsvInitType]; exact ⟨rfl, Or.inr rfl⟩
  | _ => rw [dsvInitType]; exact ⟨rfl, Or.inl rfl⟩

/-- The value that `dsv_init` leaves. -/
def initVal (E : DataEnv) (rand : List Nat → Nat) (v : DataStateVal) : DataStateVal :=
  E.fill v.raw (dsvInitType rand (E.node v.raw).type [] v).1

theorem dsvInit_eq {t : DsvLoc} {v : DataStateVal} (hin : (E.node v.raw).ssaOutside = false) :
    dsvInit E rand h t v =
      (h.set t (initVal E rand v), (dsvInitType rand (E.node v.raw).type [] v).2) := by
  unfold dsvInit
  simp only [hin, Bool.false_eq_true, if_false]
  rfl

theorem initVal_frame (E : DataEnv) (rand : List Nat → Nat) (v : DataStateVal) :
    ((initVal E rand v).isUnset = true → (initVal E rand v).raw = v.raw) ∧
      ((initVal E rand v).refTarget = none ∨ (initVal E rand v).refTarget = v.refTarget) := by
  obtain ⟨hraw, href⟩ := dsvInitType_frame rand (E.node v.raw).type [] v
  refine ⟨fun hunset => (E.fill_raw _ _ hunset).trans hraw, ?_⟩
  obtain hnone | hsame := E.fill_ref v.raw (dsvInitType rand (E.node v.raw).type [] v).1
  · exact Or.inl hnone
  · obtain hnone | hkeep := href
    · exact Or.inl (hsame.trans hnone)
    · exact Or.inr (hsame.trans hkeep)

/-- A value of its own is returned at once. -/
theorem getDsVal_settled {ds : Nat} (hset : (h ds).isUnset = false)
    (hno : (h ds).refTarget = none) (offset : Int) (bits fuel : Nat) :
    (getDsVal E rand (fuel + 1) h (dsVal ds) offset bits).isSome := by
  unfold getDsVal
  rw [get?_dsVal h rfl]
  simp only [dsVal, hset, Bool.false_eq_true, if_false]
  cases hv : h ds with
  | sec2 raw type v2 =>
    rw [hv] at hno
    cases type with
    | ref =>
      have hnone : v2.ds = none := hno
      simp only [hnone, Option.isSome_some]
    | addr => rfl
  | _ => rfl

end Srcinv.Analysis
