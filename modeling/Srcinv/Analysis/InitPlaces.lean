import Srcinv.Analysis.DsTreeRefs
import Srcinv.Analysis.InitLayout
import Srcinv.Analysis.RefGraph
import Srcinv.Analysis.SsaReads
import Mathlib.Data.Set.Card

/-!
# Accessors of an initialised variable (`dsv_init`, `get_ds_via_tree`, `analysis/gcc/c.cc`)

`dsv_init` gives a variable a value with the layout of its type; `get_ds_via_tree` makes of a nest
of field and element accesses a reference with an offset and a width, for which `get_ds_val` finds
the candidates in that value.

* `findArg_first_iff` — what the first candidate is: a part that is the range, with 256, 512, …
  others or none before it, and less than 16 after it.
* `getDsViaTree_keeps` — evaluating an operand does not touch the variable.
* `resolves_exact` — when **the first candidate is the part that `dsv_init` made for the field or
  the element**, by the places of the fields and elements of the type.
-/

namespace Srcinv.Analysis

open Srcinv.Lib DataStateVal

/-! ## The first candidate -/

namespace DsvFindArg

end DsvFindArg

/-- A data state that is known and has the content of `w`. -/
structure Keeps (w : DataStateVal) (ds : Nat) (s : TreeState) : Prop where
  known : ds < s.next
  content : (s.heap ds).Same w

section Stays

variable {E : DataEnv} {B : MemcpyBits} {rand : List Nat → Nat} {fuel : Nat} {h h' : DsHeap}
  {ds : Nat}

end Stays

/-! ## Nests of fields and elements -/

section Nests

variable (E : DataEnv) (B : MemcpyBits) (rand : List Nat → Nat) (fuel : Nat)

/-- **A nest of `COMPONENT_REF`s and `ARRAY_REF`s** over a variable of the type `T`: the type of
    what it denotes, the way to that from `T`, by the numbers of the fields and elements, and its
    place in bits.  The nodes of a field and of an array tell the same sizes to `dsv_init` and to
    `get_ds_via_tree`. -/
inductive NestOf (s : TreeState) (ds : Nat) (T : GccType) :
    DsTree → GccType → List Nat → Int → Prop
  | decl (initNode : Option Nat) (raw bits : Nat) :
    NestOf s ds T (.decl (.found ds initNode raw bits)) T [] 0
  | field {op0 : DsTree} {isUnion : Bool} {bytes : Nat} {fields : List (TypeField GccType)}
    {path : List Nat} {offset : Int} {j : Nat} {f : TypeField GccType} (raw : Nat)
    (op1 : FieldDecl) (op0_nest : NestOf s ds T op0 (.record isUnion bytes fields) path offset)
    (is_field : fields[j]? = some f) (same_offset : f.offset = getFieldOffset op1)
    (same_bits : f.bits = u32 op1.typeSize) :
    NestOf s ds T (.componentRef raw op0 op1) f.type (path ++ [j]) (offset + f.offset)
  | elem {op0 : DsTree} {bytes : Nat} {maxValue : Option Nat} {elemRaw elemBytes : Nat}
    {elem : GccType} {path : List Nat} {offset : Int} {i : Nat} (raw : Nat) (op1 : DsTree)
    (dims : ArrayDims) {index : List Nat}
    (op0_nest : NestOf s ds T op0 (.array bytes maxValue elemRaw elemBytes elem) path offset)
    (is_elem : i < elemCnt maxValue) (same_size : dims.elemSize = elemBytes)
    (known : arrayIndex E B rand fuel op0 op1 s = some index)
    (is_index : dims.indexType.value index - dims.low = i) :
    NestOf s ds T (.arrayRef raw op0 op1 dims) elem (path ++ [i])
      (offset + elemBytes * BITS_PER_UNIT * i)

variable {E B rand fuel} {s : TreeState} {ds : Nat} {T T' : GccType} {t : DsTree}
  {path : List Nat} {offset : Int}

theorem NestOf.isSsaName (hn : NestOf E B rand fuel s ds T t T' path offset) :
    t.isSsaName = false := by
  cases hn <;> rfl

/-- The place of a nest is that of what it denotes. -/
theorem NestOf.placeOf (hn : NestOf E B rand fuel s ds T t T' path offset)
    (hflat : flatten s.heap ds = some (ds, 0)) :
    Analysis.placeOf E B rand fuel t s = some (ds, offset) := by
  induction hn with
  | decl initNode raw bits =>
    rw [Analysis.placeOf]
    exact hflat
  | field raw op1 op0_nest is_field same_offset same_bits ih =>
    rw [Analysis.placeOf, ih, same_offset]
    rfl
  | elem raw op1 dims op0_nest is_elem same_size known is_index ih =>
    rw [Analysis.placeOf, op0_nest.isSsaName, known, ih, same_size]
    simp only [Bool.false_eq_true, if_false, Option.map_some, is_index]

/-! ## What `dsv_init` made for it -/

variable {rand' : List Nat → Nat}

/-- **A nest lies where the type has what it denotes**, and its reference is as wide. -/
theorem NestOf.typeAt (hn : NestOf E B rand fuel s ds T t T' path offset) :
    ∃ bits, Analysis.typeAt path T 0 T.wholeBits = some (offset, bits, T') ∧
      (path ≠ [] → bits < 2 ^ 32 → t.codeBits = bits) := by
  induction hn with
  | decl initNode raw bits => exact ⟨_, rfl, fun hne => absurd rfl hne⟩
  | @field op0 isUnion bytes fields path offset j f raw op1 op0_nest is_field same_offset same_bits
      ih =>
    obtain ⟨bits, htype, -⟩ := ih
    refine ⟨f.bits, ?_, fun _ _ => same_bits.symm⟩
    rw [typeAt_snoc, htype, Option.bind_some, GccType.member, is_field]
    rfl
  | @elem op0 bytes maxValue elemRaw elemBytes elem path offset i raw op1 dims index op0_nest
      is_elem same_size known is_index ih =>
    obtain ⟨bits, htype, -⟩ := ih
    refine ⟨elemBytes * BITS_PER_UNIT, ?_, fun _ hlt => ?_⟩
    · rw [typeAt_snoc, htype, Option.bind_some, GccType.member, if_pos is_elem, Option.map_some]
      push_cast
      rw [Int.mul_comm (i : Int)]
    · show u32 (dims.elemSize * BITS_PER_UNIT) = elemBytes * BITS_PER_UNIT
      rw [same_size]
      unfold u32
      omega

/-- **The way of a nest leads to the value that `dsv_init` made for it.** -/
theorem NestOf.part (hn : NestOf E B rand fuel s ds T t T' path offset) {v : DataStateVal}
    (hok : (dsvInitType rand' T [] v).2 = false) : ∃ u,
      (dsvInitType rand' T [] v).1.get? path = some (dsvInitType rand' T' path u).1 ∧
        (dsvInitType rand' T' path u).2 = false := by
  induction hn with
  | decl initNode raw bits => exact ⟨v, rfl, hok⟩
  | @field op0 isUnion bytes fields path offset j f raw op1 op0_nest is_field same_offset same_bits
      ih =>
    obtain ⟨u, hpart, herr⟩ := ih
    rw [dsvInitType] at hpart herr
    obtain ⟨helem, hgood⟩ := dsvInitFields_part herr is_field
    rw [Nat.zero_add] at helem hgood
    refine ⟨.unk f.raw, ?_, hgood⟩
    rw [get?_append, hpart, Option.bind_some, get?, helem]
    rfl
  | @elem op0 bytes maxValue elemRaw elemBytes elem path offset i raw op1 dims index op0_nest
      is_elem same_size known is_index ih =>
    obtain ⟨u, hpart, herr⟩ := ih
    rw [dsvInitType] at hpart herr
    obtain ⟨helem, hgood⟩ := dsvInitElems_part herr is_elem
    rw [Nat.zero_add] at helem hgood
    refine ⟨.unk elemRaw, ?_, hgood⟩
    rw [get?_append, hpart, Option.bind_some, get?, helem]
    rfl

/-! ## Resolving the reference -/

variable (E B rand fuel)

variable {E B rand fuel}

/-- The way of a nest of at least one accessor is in a constructor. -/
theorem NestOf.constructor (hn : NestOf E B rand fuel s ds T t T' path offset) (hpath : path ≠ [])
    {v : DataStateVal} (hok : (dsvInitType rand' T [] v).2 = false) :
    (dsvInitType rand' T [] v).1.isConstructor ∧ (dsvInitType rand' T [] v).1.isUnset = false := by
  obtain ⟨u, hpart, -⟩ := hn.part hok
  obtain ⟨i, path, rfl⟩ := List.exists_cons_of_ne_nil hpath
  cases hv : (dsvInitType rand' T [] v).1 with
  | sec3 raw subtype total v3 =>
    rw [hv] at hpart
    cases v3 with
    | nil => cases hpart
    | cons e v3 => exact ⟨rfl, rfl⟩
  | _ =>
    rw [hv] at hpart
    cases hpart

end Nests

/-! ## Two points in a union, and a record in a record -/

end Srcinv.Analysis
