import Srcinv.Analysis.FieldOffset
import Mathlib.Order.Basic

/-!
# Bits that are read from a record (`__4_mark_bit_field_ref` in `analysis/gcc/c.cc`)

A statement reads some bits of a record or a union.  Which field it is about is not in the
statement, so phase 4 looks at the next one: where that masks the bits by a constant, the field at
the lowest bit of the mask is marked.

* `markSeq_isSome_iff` — the walk over a block comes back when each operand in it is marked.
* `takes_iff` — which field a search takes, when it comes back.
* `markBitFieldRef_exact` — the marking comes back, and marks the field with the lowest bit that is
  read and not masked out, exactly when `BitFieldMet` holds.
-/

namespace Srcinv.Analysis.BitField

open Srcinv.Analysis.FieldOffset

/-! ## Statements -/

/-- A type of an operand: an array with the type of its elements, or another one. -/
inductive TreeType where
  | arrayType (element : TreeType)
  | other (n : Nat)
  deriving DecidableEq, Repr

/-- What a `BIT_FIELD_REF` reads from, with its type; for an `ARRAY_REF` the type of the array. -/
inductive RefBase where
  | memRef (type : TreeType)
  | varDecl (type : TreeType)
  | parmDecl (type : TreeType)
  | componentRef (type : TreeType)
  | arrayRef (op0Type : TreeType)
  | ssaName (type : TreeType)
  | other
  deriving DecidableEq, Repr

/-- The operands of a `BIT_FIELD_REF`: how many bits are read, and from which one on. -/
structure BitFieldRef where
  t0 : RefBase
  t1 : Nat
  t2 : Nat
  deriving DecidableEq, Repr

/-- The value of an `INTEGER_CST`: its first word and the others. -/
structure IntCst where
  low : BitVec 64
  ext : List (BitVec 64)
  deriving DecidableEq, Repr

/-- A bit of the value. -/
def IntCst.bit (c : IntCst) (i : Nat) : Bool :=
  ((c.low :: c.ext).getD (i / 64) 0).getLsbD (i % 64)

/-- The operands of a statement, each at its address. -/
inductive Operand where
  | integerCst (n : Nat) (value : IntCst)
  | bitFieldRef (n : Nat) (ref : BitFieldRef)
  | tree (n : Nat)
  deriving DecidableEq, Repr

def Operand.addr : Operand → Nat
  | .integerCst n _ => n
  | .bitFieldRef n _ => n
  | .tree n => n

inductive GimpleCode where
  | assign
  | cond
  | debug
  | other
  deriving DecidableEq, Repr

/-- The `subcode`s that are told apart. -/
inductive Subcode where
  | eqExpr
  | neExpr
  | bitAndExpr
  | bitXorExpr
  | rshiftExpr
  | other
  deriving DecidableEq, Repr

/-- A statement: its first operand, which a call may lack, and the others. -/
structure Gimple where
  code : GimpleCode
  subcode : Subcode
  lhs : Option Operand
  ops : List Operand
  deriving DecidableEq, Repr

/-- The `BIT_FIELD_REF`s among the operands. -/
def Gimple.refs (gs : Gimple) : List BitFieldRef :=
  (gs.lhs.toList ++ gs.ops).filterMap fun
    | .bitFieldRef _ ref => some ref
    | _ => none

/-! ## The marking -/

variable (findTypeNode : TreeType → Option TypeNode)

/-- The `while` of `get_array_ref_tn`. -/
def elementType : TreeType → TreeType
  | .arrayType element => elementType element
  | .other n => .other n

/-- `get_array_ref_tn`; `none` is a failed `BUG_ON`. -/
def getArrayRefTn : TreeType → Option (Option TypeNode)
  | .arrayType element => some (findTypeNode (elementType element))
  | .other _ => none

/-- The type node that the fields are searched in. -/
def refTypeNode : RefBase → Option (Option TypeNode)
  | .memRef type | .varDecl type | .parmDecl type | .componentRef type =>
    some (findTypeNode type)
  | .arrayRef op0Type => getArrayRefTn findTypeNode op0Type
  | .ssaName type => some ((findTypeNode type).filter fun tn => tn.typeCode ≠ .integerType)
  | .other => some none

/-- The loop over the bits of `andval` from `first_test_bit` on.  From bit 64 on the shift is not
    defined, and on the machine it starts over: the loop does not end. -/
def firstTestBit (andval : BitVec 64) (first : Nat) : Option Nat :=
  if _h : first < 64 then
    if andval.getLsbD first then some first else firstTestBit andval (first + 1)
  else none
  termination_by 64 - first

/-- The constant of a `BIT_AND_EXPR`. -/
def andCst : Operand → Operand → Option IntCst
  | .integerCst _ c, _ => some c
  | _, .integerCst _ c => some c
  | _, _ => none

/-- The result of the statement is an operand of the next one. -/
def lhsFound (curGimple nextGs : Gimple) : Bool :=
  curGimple.lhs.any fun lhs => nextGs.ops.any fun op => op.addr = lhs.addr

/-- `__4_mark_bit_field_ref`: the field that is marked.  `none` is a read of a statement that does
    not exist, a failed `BUG_ON`, a loop that does not end or a null pointer in the search. -/
def markBitFieldRef (curGimple : Gimple) (next : Option Gimple) (ref : BitFieldRef) :
    Option (Option Field) :=
  match refTypeNode findTypeNode ref.t0 with
  | none => none
  | some none => some none
  | some (some tn) =>
    match next with
    | none => none
    | some nextGs =>
      match nextGs.code with
      | .assign =>
        if ¬ lhsFound curGimple nextGs then some none
        else
          match nextGs.ops with
          | [_] => getTargetField1 (some tn) ref.t2
          | [op1, op2] =>
            match nextGs.subcode with
            | .bitAndExpr =>
              match andCst op1 op2 with
              | none => some none
              | some intcst =>
                (firstTestBit intcst.low 0).bind fun first =>
                  getTargetField1 (some tn) (ref.t2 + first)
            | .eqExpr | .neExpr | .bitXorExpr | .rshiftExpr | .other => some none
          | _ => none
      | .cond | .debug | .other => some none

/-- `__4_mark_gimple`, as far as it marks what bits are read of. -/
def markGimple (gs : Gimple) (next : Option Gimple) : Option Unit :=
  gs.refs.forM fun ref => (markBitFieldRef findTypeNode gs next ref).map fun _ => ()

/-- The loop of `__4_mark_var_func` over the statements of a block. -/
def markSeq : List Gimple → Option Unit
  | [] => some ()
  | gs :: rest => do
    markGimple findTypeNode gs rest.head?
    markSeq rest

/-! ## What is asked of the marking -/

/-- Bit `i` of what is read is not masked out by the next statement. -/
def Unmasked (nextGs : Gimple) (i : Nat) : Prop :=
  match nextGs.subcode, nextGs.ops with
  | .bitAndExpr, [op1, op2] => ∀ c, andCst op1 op2 = some c → c.bit i = true
  | _, _ => True

/-- The lowest bit that is read and not masked out. -/
def LowestBit (nextGs : Gimple) (ref : BitFieldRef) (b : Nat) : Prop :=
  b < ref.t1 ∧ Unmasked nextGs b ∧ ∀ i < b, ¬ Unmasked nextGs i

/-- The bit is one of the field's. -/
def Contains (f : Field) (bit : Nat) : Prop :=
  Field.off f ≤ bit ∧ bit < Field.off f + f.node.size

/-- The field has a place in the type where the bit is one of its own, and not of a field in it. -/
def HoldsBit (tn : TypeNode) (bit : Nat) (f : Field) : Prop :=
  ∃ base, FieldAt tn base f ∧ base ≤ bit ∧ Contains f (bit - base) ∧
    ∀ t base' f', f.type = some t → FieldAt t base' f' → base' ≤ bit - base - Field.off f →
      ¬ Contains f' (bit - base - Field.off f - base')

/-- An operand in a block that reads bits of a record or a union. -/
structure BitFieldRead where
  block : List Gimple
  pos : Fin block.length
  ref : BitFieldRef
  reads : ref ∈ (block.get pos).refs
  layout : ∀ tn, refTypeNode findTypeNode ref.t0 = some (some tn) → HasFields tn ∧ tn.Sorted

/-- The statement that reads the bits. -/
def BitFieldRead.curGimple (r : BitFieldRead findTypeNode) : Gimple := r.block.get r.pos

/-- The statement after it in the block. -/
def BitFieldRead.next (r : BitFieldRead findTypeNode) : Option Gimple := r.block[r.pos.1 + 1]?

/-- The marking comes back, and the field that it marks is the one with the lowest bit that is read
    and not masked out. -/
def MarkRight (r : BitFieldRead findTypeNode) : Prop :=
  ∃ vnl, markBitFieldRef findTypeNode r.curGimple r.next r.ref = some vnl ∧
    ∀ f, vnl = some f → ∃ nextGs tn b, r.next = some nextGs ∧
      refTypeNode findTypeNode r.ref.t0 = some (some tn) ∧ LowestBit nextGs r.ref b ∧
      HoldsBit tn (r.ref.t2 + b) f

/-! ## The condition -/

/-- A search in the type for the target meets no null pointer, and a field that it takes is one
    of `P`. -/
inductive Takes (P : Field → Prop) : TypeNode → Nat → Prop
  | start {tn : TypeNode} {target : Nat} {f : Field} (hnext : next tn target = some f)
    (hoff : Field.off f = target) (hf : P f) : Takes P tn target
  | empty {tn : TypeNode} {target : Nat} (hbefore : before tn target = none)
    (hstart : NoStart tn target) (hzero : ∀ f, next tn target = some f → target = 0) :
    Takes P tn target
  | leaf {tn t : TypeNode} {target : Nat} {g : Field} (hbefore : before tn target = some g)
    (hstart : NoStart tn target) (htype : g.type = some t) (hlook : LooksAt tn target g t)
    (hcode : checkCode t.typeCode = .target) (hg : P g) : Takes P tn target
  | record {tn t : TypeNode} {target : Nat} {g : Field} (hbefore : before tn target = some g)
    (hstart : NoStart tn target) (htype : g.type = some t) (hlook : LooksAt tn target g t)
    (hcode : checkCode t.typeCode = .again) (hin : Takes P t (target - Field.off g)) :
    Takes P tn target
  | passed {tn : TypeNode} {target : Nat} {g : Field} (hbefore : before tn target = some g)
    (hstart : NoStart tn target) (hnull : g.type = none → next tn target = none)
    (hcode : ∀ t, g.type = some t → LooksAt tn target g t → checkCode t.typeCode = .nothing) :
    Takes P tn target

/-- A search for bit `b` of what is read takes a field with the bit. -/
def TakesBit (tn : TypeNode) (ref : BitFieldRef) (b : Nat) : Prop :=
  Takes (fun f => b < ref.t1 ∧ HoldsBit tn (ref.t2 + b) f) tn (ref.t2 + b)

/-- The operands of the next statement: one, or two of which a constant in an AND has a bit in its
    first word. -/
def OpsMet (tn : TypeNode) (ref : BitFieldRef) (nextGs : Gimple) : Prop :=
  match nextGs.ops with
  | [_] => TakesBit tn ref 0
  | [op1, op2] => ∀ c, nextGs.subcode = .bitAndExpr → andCst op1 op2 = some c →
    ∃ b < 64, c.bit b = true ∧ (∀ i < b, c.bit i = false) ∧ TakesBit tn ref b
  | _ => False

/-- **The condition**: an array is read as an array; where the type has a type node, there is a next
    statement; and if that is an assignment of what is read, its operands are right. -/
def BitFieldMet (r : BitFieldRead findTypeNode) : Prop :=
  match refTypeNode findTypeNode r.ref.t0 with
  | none => False
  | some none => True
  | some (some tn) => ∃ nextGs, r.next = some nextGs ∧
    (nextGs.code = .assign → lhsFound r.curGimple nextGs → OpsMet tn r.ref nextGs)

variable {findTypeNode}

/-! ## The walk over a block -/

theorem forM_isSome {α : Type} {f : α → Option Unit} {l : List α} :
    (l.forM f).isSome ↔ ∀ a ∈ l, (f a).isSome := by
  induction l with
  | nil => exact ⟨fun _ a ha => (by cases ha), fun _ => rfl⟩
  | cons a l ih =>
    rw [List.forall_mem_cons, ← ih]
    show ((f a).bind fun _ => l.forM f).isSome ↔ _
    cases f a with
    | none => exact ⟨fun h => (by cases h), fun h => (by cases h.1)⟩
    | some u => exact ⟨fun h => ⟨rfl, h⟩, fun h => h.2⟩

/-- **The walk over a block comes back when the marking of each operand does.** -/
theorem markSeq_isSome_iff (seq : List Gimple) : (markSeq findTypeNode seq).isSome ↔
    ∀ i (h : i < seq.length), ∀ ref ∈ (seq[i]).refs,
      (markBitFieldRef findTypeNode seq[i] seq[i + 1]? ref).isSome := by
  induction seq with
  | nil => exact ⟨fun _ i h => (by cases h), fun _ => rfl⟩
  | cons gs rest ih =>
    have hgs : (markGimple findTypeNode gs rest.head?).isSome ↔
        ∀ ref ∈ gs.refs, (markBitFieldRef findTypeNode gs rest[0]? ref).isSome := by
      rw [markGimple, forM_isSome, List.head?_eq_getElem?]
      simp only [Option.isSome_map]
    have hcons : (markSeq findTypeNode (gs :: rest)).isSome ↔
        (markGimple findTypeNode gs rest.head?).isSome ∧ (markSeq findTypeNode rest).isSome := by
      show ((markGimple findTypeNode gs rest.head?).bind fun _ =>
        markSeq findTypeNode rest).isSome ↔ _
      cases markGimple findTypeNode gs rest.head? with
      | none => exact ⟨fun h => (by cases h), fun h => (by cases h.1)⟩
      | some u => exact ⟨fun h => ⟨rfl, h⟩, fun h => h.2⟩
    rw [hcons, hgs, ih]
    constructor
    · rintro ⟨hfirst, hrest⟩ (_ | i) h
      · exact hfirst
      · exact hrest i (Nat.lt_of_succ_lt_succ h)
    · exact fun h => ⟨h 0 (Nat.succ_pos _), fun i hi => h (i + 1) (Nat.succ_lt_succ hi)⟩

/-! ## The lowest bit of a constant -/

theorem IntCst.bit_low (c : IntCst) {i : Nat} (h : i < 64) : c.bit i = c.low.getLsbD i := by
  unfold IntCst.bit
  rw [Nat.div_eq_of_lt h, Nat.mod_eq_of_lt h]
  rfl

theorem firstTestBit_eq_some {andval : BitVec 64} {first b : Nat} :
    firstTestBit andval first = some b ↔
      first ≤ b ∧ b < 64 ∧ andval.getLsbD b = true ∧
        ∀ i, first ≤ i → i < b → andval.getLsbD i = false := by
  induction hn : 64 - first generalizing first with
  | zero =>
    rw [firstTestBit, dif_neg (by omega)]
    refine ⟨fun h => (by cases h), fun h => ?_⟩
    obtain ⟨hle, hlt, -⟩ := h
    omega
  | succ n ih =>
    rw [firstTestBit, dif_pos (by omega)]
    by_cases hbit : andval.getLsbD first
    · rw [if_pos hbit, Option.some.injEq]
      constructor
      · rintro rfl
        exact ⟨Nat.le_refl _, by omega, hbit, fun i hle hlt => by omega⟩
      · rintro ⟨hle, -, -, hmin⟩
        by_contra hne
        rw [hmin first (Nat.le_refl _) (by omega)] at hbit
        cases hbit
    · rw [if_neg hbit, ih (by omega)]
      constructor
      · rintro ⟨hle, hlt, hb, hmin⟩
        refine ⟨by omega, hlt, hb, fun i hi hib => ?_⟩
        obtain rfl | hne := Nat.eq_or_lt_of_le hi
        · exact eq_false_of_ne_true hbit
        · exact hmin i hne hib
      · rintro ⟨hle, hlt, hb, hmin⟩
        have hne : first ≠ b := by
          rintro rfl
          exact hbit hb
        exact ⟨by omega, hlt, hb, fun i hi hib => hmin i (by omega) hib⟩

/-! ## The field that a search takes -/

/-- What a search that comes back took. -/
theorem takes_of_search {P : Field → Prop} {tn : TypeNode} {target b : Nat} {vnl : Option Field}
    (base : Nat) (hsorted : tn.Sorted) (h : search tn base target = some (vnl, b))
    (hP : ∀ f, vnl = some f → P f) : Takes P tn target := by
  induction hn : sizeOf tn using Nat.strong_induction_on generalizing tn base target with
  | _ n ih =>
  obtain ⟨f, hnext, hoff, hs⟩ | ⟨hstart, hbefore, hs⟩ | ⟨g, hstart, hbefore, htype, hs⟩ |
    ⟨g, t, hstart, hbefore, htype, hs, hs'⟩ := search_cases base hsorted target
  · rw [hs] at h
    cases h
    exact .start hnext hoff (hP f rfl)
  · rw [hs] at h
    split at h
    · cases h
    · rename_i hno
      refine .empty hbefore hstart fun f hnext => ?_
      by_contra hne
      exact hno ⟨by rw [hnext]; rfl, Nat.pos_of_ne_zero hne⟩
  · rw [hs] at h
    split at h
    · cases h
    · rename_i hno
      exact .passed hbefore hstart (fun _ => by simpa using hno)
        fun t ht => by rw [htype] at ht; cases ht
  · have hother : ∀ {p : Prop}, g.type = none → p := fun hnone => by
      rw [htype] at hnone
      cases hnone
    by_cases hlook : LooksAt tn target g t
    · rw [hs hlook] at h
      cases hcode : checkCode t.typeCode with
      | target =>
        rw [hcode] at h
        cases h
        exact .leaf hbefore hstart htype hlook hcode (hP g rfl)
      | again =>
        rw [hcode] at h
        have hg := (mem_before hbefore).1
        exact .record hbefore hstart htype hlook hcode
          (ih (sizeOf t) (hn ▸ sizeOf_type_lt hg htype) _ (hsorted.type hg htype) h rfl)
      | nothing =>
        refine .passed hbefore hstart hother fun t' ht' _ => ?_
        obtain rfl := Option.some.inj (htype.symm.trans ht')
        exact hcode
    · refine .passed hbefore hstart hother fun t' ht' hlook' => ?_
      obtain rfl := Option.some.inj (htype.symm.trans ht')
      exact absurd hlook' hlook

/-- Where a field may be taken, the search comes back with it. -/
theorem search_of_takes {P : Field → Prop} {tn : TypeNode} {target : Nat} (base : Nat)
    (hsorted : tn.Sorted) (h : Takes P tn target) :
    ∃ vnl b, search tn base target = some (vnl, b) ∧ ∀ f, vnl = some f → P f := by
  induction h generalizing base with
  | start hnext hoff hf =>
    exact ⟨_, _, search_start base hnext hoff, fun f hf' => Option.some.inj hf' ▸ hf⟩
  | @empty tn target hbefore hstart hzero =>
    refine ⟨none, base, ?_, fun f hf => (by cases hf)⟩
    rw [search_empty base hbefore hstart, if_neg]
    rintro ⟨hsome, hpos⟩
    obtain ⟨f, hnext⟩ := Option.isSome_iff_exists.mp hsome
    have := hzero f hnext
    omega
  | @leaf tn t target g hbefore hstart htype hlook hcode hg =>
    refine ⟨some g, base, ?_, fun f hf' => Option.some.inj hf' ▸ hg⟩
    rw [(search_before base hsorted hbefore hstart htype).1 hlook, hcode]
  | @record tn t target g hbefore hstart htype hlook hcode _ ih =>
    rw [(search_before base hsorted hbefore hstart htype).1 hlook, hcode]
    exact ih _ (hsorted.type (mem_before hbefore).1 htype)
  | @passed tn target g hbefore hstart hnull hcode =>
    refine ⟨none, base, ?_, fun f hf => (by cases hf)⟩
    cases htype : g.type with
    | none =>
      rw [search_null base hbefore hstart htype, if_neg]
      rw [hnull htype]
      exact Bool.false_ne_true
    | some t =>
      obtain ⟨hlooks, hpasses⟩ := search_before base hsorted hbefore hstart htype
      by_cases hlook : LooksAt tn target g t
      · rw [hlooks hlook, hcode t htype hlook]
      · exact hpasses hlook

/-- **A search comes back with nothing but fields of `P`**, by the fields of the types. -/
theorem takes_iff {P : Field → Prop} {tn : TypeNode} {target : Nat} (base : Nat)
    (hsorted : tn.Sorted) :
    (∃ vnl b, search tn base target = some (vnl, b) ∧ ∀ f, vnl = some f → P f) ↔
      Takes P tn target :=
  ⟨fun ⟨_, _, h, hP⟩ => takes_of_search base hsorted h hP, search_of_takes base hsorted⟩

/-- `get_target_field1` and the search. -/
theorem getTargetField1_takes {P : Field → Prop} {tn : TypeNode} {target : Nat}
    (hsorted : tn.Sorted) :
    (∃ vnl, getTargetField1 (some tn) target = some vnl ∧ ∀ f, vnl = some f → P f) ↔
      Takes P tn target := by
  have hfield : getTargetField1 (some tn) target = (search tn 0 target).map fun r => r.1 := by
    show (calculateFieldOffset tn 0 0 target).map _ = _
    rw [search, Nat.zero_add, Option.map_map]
    rfl
  rw [← takes_iff 0 hsorted, hfield]
  constructor
  · rintro ⟨vnl, h, hP⟩
    obtain ⟨⟨vnl, b⟩, hs, rfl⟩ := Option.map_eq_some_iff.mp h
    exact ⟨vnl, b, hs, hP⟩
  · rintro ⟨vnl, b, hs, hP⟩
    exact ⟨vnl, by rw [hs]; rfl, hP⟩

/-! ## The marking -/

/-- The field is the one with the lowest bit that is read and not masked out. -/
def Marked (tn : TypeNode) (nextGs : Gimple) (ref : BitFieldRef) (f : Field) : Prop :=
  ∃ b, LowestBit nextGs ref b ∧ HoldsBit tn (ref.t2 + b) f

/-- Where no bit before `b` is left and `b` is, the field has to have bit `b`. -/
theorem takes_marked {tn : TypeNode} {nextGs : Gimple} {ref : BitFieldRef} {b target : Nat}
    (hb : Unmasked nextGs b) (hmin : ∀ i < b, ¬ Unmasked nextGs i) :
    Takes (Marked tn nextGs ref) tn target ↔
      Takes (fun f => b < ref.t1 ∧ HoldsBit tn (ref.t2 + b) f) tn target := by
  have heq : Marked tn nextGs ref = fun f => b < ref.t1 ∧ HoldsBit tn (ref.t2 + b) f := by
    funext f
    refine propext ⟨?_, fun ⟨hlt, hf⟩ => ⟨b, ⟨hlt, hb, hmin⟩, hf⟩⟩
    rintro ⟨b', ⟨hlt, hb', hmin'⟩, hf⟩
    obtain rfl : b = b' := by
      by_contra hne
      obtain hlt | hlt := Nat.lt_or_gt_of_ne hne
      · exact hmin' b hlt hb
      · exact hmin b' hlt hb'
    exact ⟨hlt, hf⟩
  rw [heq]

/-- The search for the lowest bit of a constant. -/
theorem and_marked {tn : TypeNode} {nextGs : Gimple} {ref : BitFieldRef} {op1 op2 : Operand}
    {c : IntCst} (hsorted : tn.Sorted) (hsub : nextGs.subcode = .bitAndExpr)
    (hops : nextGs.ops = [op1, op2]) (hc : andCst op1 op2 = some c) :
    (∃ vnl, ((firstTestBit c.low 0).bind fun first =>
        getTargetField1 (some tn) (ref.t2 + first)) = some vnl ∧
      ∀ f, vnl = some f → Marked tn nextGs ref f) ↔
    ∃ b < 64, c.bit b = true ∧ (∀ i < b, c.bit i = false) ∧ TakesBit tn ref b := by
  have hunmasked : ∀ i, Unmasked nextGs i ↔ c.bit i = true := by
    intro i
    simp only [Unmasked, hsub, hops, hc, Option.some.injEq, forall_eq']
  have hfirst : ∀ b, firstTestBit c.low 0 = some b ↔
      b < 64 ∧ c.bit b = true ∧ ∀ i < b, c.bit i = false := by
    intro b
    rw [firstTestBit_eq_some]
    constructor
    · rintro ⟨-, hlt, hb, hmin⟩
      refine ⟨hlt, by rwa [c.bit_low hlt], fun i hi => ?_⟩
      rw [c.bit_low (by omega)]
      exact hmin i (Nat.zero_le i) hi
    · rintro ⟨hlt, hb, hmin⟩
      refine ⟨Nat.zero_le b, hlt, by rwa [← c.bit_low hlt], fun i _ hi => ?_⟩
      rw [← c.bit_low (by omega)]
      exact hmin i hi
  have htakes : ∀ b, c.bit b = true → (∀ i < b, c.bit i = false) →
      (Takes (Marked tn nextGs ref) tn (ref.t2 + b) ↔ TakesBit tn ref b) := by
    intro b hb hmin
    refine takes_marked ((hunmasked b).mpr hb) fun i hi => ?_
    rw [hunmasked, hmin i hi]
    exact Bool.false_ne_true
  constructor
  · rintro ⟨vnl, h, hmarked⟩
    obtain ⟨b, hb, h⟩ := Option.bind_eq_some_iff.mp h
    obtain ⟨hlt, hbit, hmin⟩ := (hfirst b).mp hb
    exact ⟨b, hlt, hbit, hmin, (htakes b hbit hmin).mp
      ((getTargetField1_takes hsorted).mp ⟨vnl, h, hmarked⟩)⟩
  · rintro ⟨b, hlt, hbit, hmin, h⟩
    obtain ⟨vnl, h, hmarked⟩ := (getTargetField1_takes hsorted).mpr ((htakes b hbit hmin).mpr h)
    exact ⟨vnl, Option.bind_eq_some_iff.mpr ⟨b, (hfirst b).mpr ⟨hlt, hbit, hmin⟩, h⟩, hmarked⟩

/-- The marking with a type node and a next statement. -/
theorem mark_next {curGimple nextGs : Gimple} {ref : BitFieldRef} {tn : TypeNode}
    (hsorted : tn.Sorted) (htn : refTypeNode findTypeNode ref.t0 = some (some tn)) :
    (∃ vnl, markBitFieldRef findTypeNode curGimple (some nextGs) ref = some vnl ∧
      ∀ f, vnl = some f → Marked tn nextGs ref f) ↔
    (nextGs.code = .assign → lhsFound curGimple nextGs → OpsMet tn ref nextGs) := by
  have hnone : ∀ {o : Option (Option Field)}, o = some none →
      ∃ vnl, o = some vnl ∧ ∀ f, vnl = some f → Marked tn nextGs ref f :=
    fun h => ⟨none, h, fun f hf => (by cases hf)⟩
  unfold markBitFieldRef
  rw [htn]
  dsimp only
  cases hcode : nextGs.code with
  | cond | debug | other =>
    exact ⟨fun _ h => (by cases h), fun _ => hnone rfl⟩
  | assign =>
    by_cases hfound : lhsFound curGimple nextGs
    · rw [if_neg (not_not.mpr hfound)]
      simp only [hfound, forall_const]
      unfold OpsMet
      rcases hops : nextGs.ops with _ | ⟨op1, _ | ⟨op2, _ | ⟨op3, ops⟩⟩⟩
      · exact ⟨fun ⟨_, h, _⟩ => (by cases h), False.elim⟩
      · have hunmasked : Unmasked nextGs 0 := by
          unfold Unmasked
          rw [hops]
          cases nextGs.subcode <;> trivial
        refine (getTargetField1_takes hsorted).trans ?_
        exact takes_marked hunmasked fun i hi => absurd hi (Nat.not_lt_zero i)
      · dsimp only
        cases hsub : nextGs.subcode with
        | bitAndExpr =>
          cases hc : andCst op1 op2 with
          | none =>
            simp only [reduceCtorEq, false_implies, implies_true, iff_true]
            exact hnone rfl
          | some c =>
            simp only [forall_const, Option.some.injEq, forall_eq']
            exact and_marked hsorted hsub hops hc
        | eqExpr | neExpr | bitXorExpr | rshiftExpr | other =>
          exact ⟨fun _ c h => (by cases h), fun _ => hnone rfl⟩
      · exact ⟨fun ⟨_, h, _⟩ => (by cases h), False.elim⟩
    · rw [if_pos hfound]
      exact ⟨fun _ _ h => absurd h hfound, fun _ => hnone rfl⟩

/-- **Phase 4 marks the field that is read, exactly.** -/
theorem markBitFieldRef_exact (findTypeNode : TreeType → Option TypeNode)
    (r : BitFieldRead findTypeNode) : MarkRight findTypeNode r ↔ BitFieldMet findTypeNode r := by
  unfold MarkRight BitFieldMet
  cases htn : refTypeNode findTypeNode r.ref.t0 with
  | none =>
    have hmark : markBitFieldRef findTypeNode r.curGimple r.next r.ref = none := by
      rw [markBitFieldRef, htn]
    rw [hmark]
    exact ⟨fun ⟨_, h, _⟩ => (by cases h), False.elim⟩
  | some o =>
    cases o with
    | none =>
      have hmark : markBitFieldRef findTypeNode r.curGimple r.next r.ref = some none := by
        rw [markBitFieldRef, htn]
      exact ⟨fun _ => trivial, fun _ => ⟨none, hmark, fun f hf => (by cases hf)⟩⟩
    | some tn =>
      cases hnext : r.next with
      | none =>
        have hmark : markBitFieldRef findTypeNode r.curGimple none r.ref = none := by
          rw [markBitFieldRef, htn]
        rw [hmark]
        exact ⟨fun ⟨_, h, _⟩ => (by cases h), fun ⟨_, h, _⟩ => (by cases h)⟩
      | some nextGs =>
        have hmarked : ∀ f, Marked tn nextGs r.ref f ↔ ∃ nextGs' tn' b,
            some nextGs = some nextGs' ∧ some (some tn) = some (some tn') ∧
              LowestBit nextGs' r.ref b ∧ HoldsBit tn' (r.ref.t2 + b) f := by
          intro f
          constructor
          · rintro ⟨b, hb, hf⟩
            exact ⟨nextGs, tn, b, rfl, rfl, hb, hf⟩
          · rintro ⟨_, _, b, ⟨⟩, ⟨⟩, hb, hf⟩
            exact ⟨b, hb, hf⟩
        refine (exists_congr fun vnl => and_congr_right fun _ => forall_congr' fun f =>
          imp_congr_right fun _ => (hmarked f).symm).trans ?_
        simp only [Option.some.injEq, exists_eq_left']
        exact mark_next (r.layout tn htn).2 htn

/-! ## The last statement of a block -/

/-- `struct { int x; } *p;` and a block that ends with `_1 = BIT_FIELD_REF <*p, 8, 0>`. -/
def lastType (type : TreeType) : Option TypeNode :=
  if type = .other 0 then
    some (.mk .recordType 4 [⟨⟨some 0, some 0, 32⟩, some (.mk .integerType 4 [])⟩])
  else none

def lastRef : BitFieldRef := ⟨.memRef (.other 0), 8, 0⟩

def lastGimple : Gimple := ⟨.assign, .other, some (.tree 1), [.bitFieldRef 2 lastRef]⟩

theorem lastRef_layout (tn : TypeNode) (h : refTypeNode lastType lastRef.t0 = some (some tn)) :
    HasFields tn ∧ tn.Sorted := by
  obtain rfl := Option.some.inj (Option.some.inj h)
  refine ⟨Or.inl rfl, .mk (List.pairwise_singleton _ _) fun f hf t ht => ?_⟩
  obtain rfl := List.mem_singleton.mp hf
  cases ht
  exact .mk List.Pairwise.nil fun f hf => (by cases hf)

theorem lastRef_reads : lastRef ∈ ([lastGimple].get ⟨0, Nat.one_pos⟩).refs := by decide

def lastRead : BitFieldRead lastType :=
  ⟨[lastGimple], ⟨0, Nat.one_pos⟩, lastRef, lastRef_reads, lastRef_layout⟩

/-- There is no statement after it. -/
theorem lastRead_no_next : ¬ MarkRight lastType lastRead := by
  rintro ⟨vnl, h, -⟩
  cases h

end Srcinv.Analysis.BitField
