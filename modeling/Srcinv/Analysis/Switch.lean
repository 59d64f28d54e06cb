import Srcinv.Lib.ByteNum
import Srcinv.Analysis.Assign
import Srcinv.Analysis.PhiEdges

/-!
# Switches (`analysis/gcc/c.cc`, `lib/gcc/tree-cfg.cc`)

`dec_gimple_switch` copies the bits of the index into an integer constant that it has made out of
`integer_zero_node`, and searches the case labels, which are sorted, for its number.  The bits that
the index does not have are 0, and the constant has one word with a sign.

* `findCaseLabelForValue_eq` — the search finds the label that contains the number.
* `decGimpleSwitch_eq` — what is decoded next is the block for the number of the constant.
* `switch_exact` — where that is the block for the index.
-/

namespace Srcinv.Analysis

open Srcinv.Lib

/-! ## Labels -/

/-- A case label: `CASE_LOW`, `CASE_HIGH` and `CASE_LABEL`. -/
structure CaseLabel where
  low : Int
  high : Option Int
  label : Nat
  deriving DecidableEq, Repr

namespace CaseLabel

/-- The last value of a label. -/
def top (t : CaseLabel) : Int := t.high.getD t.low

/-- The two comparisons of `tree_int_cst_compare`. -/
def Contains (t : CaseLabel) (val : Int) : Prop :=
  match t.high with
  | none => t.low = val
  | some high => t.low ≤ val ∧ val ≤ high

instance (t : CaseLabel) (val : Int) : Decidable (t.Contains val) := by
  unfold Contains
  cases t.high <;> infer_instance

theorem contains_iff {t : CaseLabel} {val : Int} :
    t.Contains val ↔ t.low ≤ val ∧ val ≤ t.top := by
  unfold Contains top
  cases t.high with
  | none =>
    simp only [Option.getD_none]
    omega
  | some high => rfl

end CaseLabel

/-- `gswitch`: the label with number 0 is the default label. -/
structure SwitchStmt where
  bb : Nat
  default : Nat
  cases : List CaseLabel
  deriving DecidableEq, Repr

/-- The labels are sorted and disjoint. -/
structure SwitchStmt.Sorted (s : SwitchStmt) : Prop where
  low_le : ∀ t ∈ s.cases, t.low ≤ t.top
  lt : s.cases.Pairwise fun t t' => t.top < t'.low

/-- The loop of `find_case_label_for_value`, on the labels from number `low` to before `high`. -/
def caseLoop (cases : List CaseLabel) (val : Int) (low high : Nat)
    (hhigh : high ≤ cases.length + 1) : Option CaseLabel :=
  if hmore : high - low > 1 then
    have hi : (high + low) / 2 - 1 < cases.length := by omega
    let t := cases[(high + low) / 2 - 1]
    if t.Contains val then some t
    else if t.low > val then caseLoop cases val low ((high + low) / 2) (by omega)
    else caseLoop cases val ((high + low) / 2) high hhigh
  else none
termination_by high - low

/-- `find_case_label_for_value`; `none` is the default label. -/
def findCaseLabelForValue (s : SwitchStmt) (val : Int) : Option CaseLabel :=
  caseLoop s.cases val 0 (s.cases.length + 1) (Nat.le_refl _)

/-- The label that is taken. -/
def takenLabel (s : SwitchStmt) (val : Int) : Nat :=
  if s.cases.length = 0 then s.default
  else ((findCaseLabelForValue s val).map CaseLabel.label).getD s.default

/-- `find_edge`: the shorter vector is searched. -/
def findEdge (g : Cfg) (pred succ : Nat) : Option Edge :=
  let out := (g.succs pred).getD []
  if out.length ≤ (g.preds succ).length then out.find? fun e => e.dest = succ
  else (g.preds succ).find? fun e => e.src = pred

/-- `si_find_taken_edge_switch_expr`; an edge that is not there is a failed `BUG_ON`. -/
def siFindTakenEdgeSwitchExpr (g : Cfg) (labelToBlock : Nat → Nat) (s : SwitchStmt) (val : Int) :
    Option Edge :=
  findEdge g s.bb (labelToBlock (takenLabel s val))

/-! ## The index -/

/-- The type of an index. -/
structure IndexType where
  signed : Bool
  bytes : Nat
  deriving DecidableEq, Repr

/-- The number of an integer constant with one word. -/
def oneWord (val : Nat) : Int := (val : Int).bmod (2 ^ 64)

/-- The constant that is made from the bytes of the index, `get_type_bits` of them. -/
def fakeTree (B : MemcpyBits) (type : IndexType) (v1 : List Nat) : Int :=
  oneWord (B.toU64 (v1.take type.bytes))

/-- `dec_gimple_switch`, from the data state of the index: the block that is decoded next, if it is
    successful. -/
def decGimpleSwitch (E : DataEnv) (B : MemcpyBits) (rand : List Nat → Nat) (fuel : Nat) (g : Cfg)
    (labelToBlock : Nat → Nat) (s : SwitchStmt) (type : IndexType) (h : DsHeap) (index : DsvLoc) :
    Option (DsHeap × Option Nat) :=
  match getDsVal E rand fuel h index 0 0 with
  | none => none
  | some (h', none) => some (h', none)
  | some (h', some locs) =>
    match dsvArgFind h' locs .intCst with
    | none => some (h', none)
    | some loc =>
      match h'.get? loc with
      | some (.sec1 _ .intCst v1) =>
        (siFindTakenEdgeSwitchExpr g labelToBlock s (fakeTree B type v1)).map fun e =>
          (h', some e.dest)
      | _ => none

/-! ## The search -/

variable {s : SwitchStmt} {val : Int}

/-- The loop finds the label that contains a number, if this is between the ends. -/
theorem caseLoop_of_contains (hs : s.Sorted) {low high : Nat} {hhigh : high ≤ s.cases.length + 1}
    {k : Nat} (hk : k < s.cases.length) (hin : s.cases[k].Contains val) (hlow : low < k + 1)
    (htop : k + 1 < high) : caseLoop s.cases val low high hhigh = some s.cases[k] := by
  obtain ⟨hge, hle⟩ := CaseLabel.contains_iff.mp hin
  have hlt : ∀ {i j : Nat} (hi : i < s.cases.length) (hj : j < s.cases.length), i < j →
      s.cases[i].top < s.cases[j].low := fun hi hj hij =>
    List.pairwise_iff_getElem.mp hs.lt _ _ hi hj hij
  fun_induction caseLoop s.cases val low high hhigh with
  | case1 low high hhigh hmore hi t hfound =>
    obtain ⟨hge', hle'⟩ := CaseLabel.contains_iff.mp hfound
    obtain hbefore | heq | hafter := Nat.lt_trichotomy ((high + low) / 2 - 1) k
    · have hord : t.top < s.cases[k].low := hlt hi hk hbefore
      omega
    · subst heq
      rfl
    · have hord : s.cases[k].top < t.low := hlt hk hi hafter
      omega
  | case2 low high hhigh hmore hi t hnot hless ih =>
    refine ih hlow ?_
    obtain hbefore | heq | hafter := Nat.lt_trichotomy ((high + low) / 2 - 1) k
    · have hord : t.top < s.cases[k].low := hlt hi hk hbefore
      have hsize : t.low ≤ t.top := hs.low_le t (List.getElem_mem hi)
      omega
    · subst heq
      exact absurd hin hnot
    · omega
  | case3 low high hhigh hmore hi t hnot hless ih =>
    refine ih ?_ htop
    obtain hbefore | heq | hafter := Nat.lt_trichotomy ((high + low) / 2 - 1) k
    · omega
    · subst heq
      exact absurd hin hnot
    · have hord : s.cases[k].top < t.low := hlt hk hi hafter
      omega
  | case4 low high hhigh hmore => omega

theorem caseLoop_some {low high : Nat} {hhigh : high ≤ s.cases.length + 1} {t : CaseLabel}
    (h : caseLoop s.cases val low high hhigh = some t) : t ∈ s.cases ∧ t.Contains val := by
  fun_induction caseLoop s.cases val low high hhigh with
  | case1 low high hhigh hmore hi t' hfound =>
    obtain rfl : t' = t := Option.some.inj h
    exact ⟨List.getElem_mem hi, hfound⟩
  | case2 low high hhigh hmore hi t hnot hless ih => exact ih h
  | case3 low high hhigh hmore hi t hnot hless ih => exact ih h
  | case4 low high hhigh hmore => cases h

/-- **The search finds the label that contains the number**, if there is one. -/
theorem findCaseLabelForValue_eq (hs : s.Sorted) (val : Int) :
    findCaseLabelForValue s val = s.cases.find? fun t => t.Contains val := by
  unfold findCaseLabelForValue
  cases hfind : s.cases.find? fun t => t.Contains val with
  | some t =>
    have htrue := List.find?_some hfind
    have hin : t.Contains val := of_decide_eq_true htrue
    obtain ⟨k, hk, rfl⟩ := List.mem_iff_getElem.mp (List.mem_of_find?_eq_some hfind)
    exact caseLoop_of_contains hs hk hin (by omega) (by omega)
  | none =>
    cases hloop : caseLoop s.cases val 0 (s.cases.length + 1) (Nat.le_refl _) with
    | none => rfl
    | some t =>
      obtain ⟨hmem, hin⟩ := caseLoop_some hloop
      exact absurd (decide_eq_true hin) (List.find?_eq_none.mp hfind t hmem)

/-- The label of a number: that of the case that contains it, or else the default label. -/
def SwitchStmt.labelOf (s : SwitchStmt) (val : Int) : Nat :=
  ((s.cases.find? fun t => t.Contains val).map CaseLabel.label).getD s.default

theorem takenLabel_eq (hs : s.Sorted) (val : Int) : takenLabel s val = s.labelOf val := by
  unfold takenLabel SwitchStmt.labelOf
  rw [findCaseLabelForValue_eq hs]
  split
  · rename_i hnil
    rw [List.length_eq_zero_iff.mp hnil]
    rfl
  · rfl

/-- An edge between two blocks is found. -/
theorem findEdge_some {g : Cfg} {pred succ : Nat} {e : Edge} (he : e ∈ g.preds succ)
    (hsrc : e.src = pred) : ∃ e', findEdge g pred succ = some e' ∧ e'.dest = succ := by
  obtain ⟨hdest, es, hes, hmem⟩ := mem_of_preds he
  rw [hsrc] at hes
  unfold findEdge
  simp only [hes, Option.getD_some]
  split
  · cases hfind : es.find? fun e => e.dest = succ with
    | none => exact absurd (decide_eq_true hdest) (List.find?_eq_none.mp hfind e hmem)
    | some e' =>
      have htrue := List.find?_some hfind
      exact ⟨e', rfl, of_decide_eq_true htrue⟩
  · cases hfind : (g.preds succ).find? fun e => e.src = pred with
    | none => exact absurd (decide_eq_true hsrc) (List.find?_eq_none.mp hfind e he)
    | some e' => exact ⟨e', rfl, (mem_of_preds (List.mem_of_find?_eq_some hfind)).1⟩

/-- Every label of a switch has an edge. -/
def SwitchStmt.HasEdges (s : SwitchStmt) (g : Cfg) (labelToBlock : Nat → Nat) : Prop :=
  ∀ label, label = s.default ∨ label ∈ s.cases.map CaseLabel.label →
    ∃ e ∈ g.preds (labelToBlock label), e.src = s.bb

/-- The block of a number. -/
def SwitchStmt.blockOf (s : SwitchStmt) (labelToBlock : Nat → Nat) (val : Int) : Nat :=
  labelToBlock (s.labelOf val)

theorem siFindTakenEdge_eq {g : Cfg} {labelToBlock : Nat → Nat} (hs : s.Sorted)
    (hedges : s.HasEdges g labelToBlock) (val : Int) :
    ∃ e, siFindTakenEdgeSwitchExpr g labelToBlock s val = some e ∧
      e.dest = s.blockOf labelToBlock val := by
  have hlabel : s.labelOf val = s.default ∨ s.labelOf val ∈ s.cases.map CaseLabel.label := by
    unfold SwitchStmt.labelOf
    cases hfind : s.cases.find? fun t => t.Contains val with
    | none => exact Or.inl rfl
    | some t => exact Or.inr (List.mem_map_of_mem (List.mem_of_find?_eq_some hfind))
  obtain ⟨e, he, hsrc⟩ := hedges _ hlabel
  unfold siFindTakenEdgeSwitchExpr
  rw [takenLabel_eq hs]
  exact findEdge_some he hsrc

/-! ## The number of the index -/

/-- The number that the constant has for an index that is not read right. -/
def IndexType.misread (type : IndexType) (v : Int) : Int :=
  if type.signed then v + 2 ^ (8 * type.bytes) else v - 2 ^ 64

/-- **The indices that are read right**: those of 8 bytes with a sign, and others from 0 to before
    2^63. -/
def IndexType.ReadRight (type : IndexType) (v : Int) : Prop :=
  if type.signed then type.bytes = 8 ∨ 0 ≤ v else v < 2 ^ 63

instance (type : IndexType) (v : Int) : Decidable (type.ReadRight v) := by
  unfold IndexType.ReadRight
  infer_instance

/-- The number of the constant, by that of the index. -/
theorem fakeTree_eq (B : MemcpyBits) {type : IndexType} {v1 : List Nat} {v : Int}
    (hlen : type.bytes ≤ v1.length) (hle : type.bytes ≤ 8)
    (hv : bytesInt type.signed (8 * type.bytes) v1 = v) :
    (type.ReadRight v → fakeTree B type v1 = v) ∧
      (¬ type.ReadRight v → fakeTree B type v1 = type.misread v) := by
  have hfake : fakeTree B type v1 =
      ((bytesNat v1 : Int) % 2 ^ (8 * type.bytes) % 2 ^ 64).bmod (2 ^ 64) := by
    unfold fakeTree oneWord
    rw [MemcpyBits.toU64_eq, bytesNat_take]
    have hpow : (256 : Nat) ^ type.bytes = 2 ^ (8 * type.bytes) := by
      rw [pow_mul]
      norm_num
    rw [hpow]
    norm_cast
  have hmin : min (8 * type.bytes) (8 * v1.length) = 8 * type.bytes := by omega
  unfold bytesInt at hv
  rw [hmin] at hv
  rw [hfake]
  unfold IndexType.ReadRight IndexType.misread
  have hpos : (0 : Int) < 2 ^ (8 * type.bytes) := by positivity
  have hnonneg := Int.emod_nonneg (bytesNat v1 : Int) (Int.ne_of_gt hpos)
  have hlt := Int.emod_lt_of_pos (bytesNat v1 : Int) hpos
  have hword : (2 : Int) ^ (8 * type.bytes) = 2 ^ 64 ∧ type.bytes = 8 ∨
      (2 : Int) ^ (8 * type.bytes) ≤ 2 ^ 56 ∧ type.bytes ≠ 8 := by
    obtain height | hsmall : type.bytes = 8 ∨ type.bytes ≤ 7 := by omega
    · rw [height]
      exact Or.inl ⟨rfl, rfl⟩
    · exact Or.inr ⟨pow_le_pow_right₀ (by norm_num) (by omega), by omega⟩
  unfold wrap at hv
  rw [Int.bmod_def] at hv ⊢
  push_cast at hv ⊢
  generalize (2 : Int) ^ (8 * type.bytes) = M at *
  generalize (bytesNat v1 : Int) % M = x at *
  cases hsigned : type.signed with
  | false =>
    rw [hsigned, if_neg (by decide)] at hv
    simp only [Bool.false_eq_true, if_false]
    omega
  | true =>
    rw [hsigned, if_pos rfl] at hv
    simp only [if_true]
    omega

/-! ## The block that is decoded next -/

variable {E : DataEnv} {B : MemcpyBits} {rand : List Nat → Nat} {fuel : Nat} {g : Cfg}
  {labelToBlock : Nat → Nat} {type : IndexType} {h h' : DsHeap} {index : DsvLoc} {v : Int}

/-- The index has the value `v` when it is read, which leaves the data states `h'`. -/
def HoldsIndex (E : DataEnv) (rand : List Nat → Nat) (fuel : Nat) (type : IndexType) (h : DsHeap)
    (index : DsvLoc) (v : Int) (h' : DsHeap) : Prop :=
  ∃ locs loc raw v1, getDsVal E rand fuel h index 0 0 = some (h', some locs) ∧
    dsvArgFind h' locs .intCst = some loc ∧ h'.get? loc = some (.sec1 raw .intCst v1) ∧
    type.bytes ≤ v1.length ∧ bytesInt type.signed (8 * type.bytes) v1 = v

/-- **What is decoded next.** -/
theorem decGimpleSwitch_eq (hs : s.Sorted) (hedges : s.HasEdges g labelToBlock)
    (hle : type.bytes ≤ 8) (hindex : HoldsIndex E rand fuel type h index v h') :
    ∃ val, decGimpleSwitch E B rand fuel g labelToBlock s type h index =
        some (h', some (s.blockOf labelToBlock val)) ∧
      (type.ReadRight v → val = v) ∧ (¬ type.ReadRight v → val = type.misread v) := by
  obtain ⟨locs, loc, raw, v1, hread, hfind, hget, hlen, hv⟩ := hindex
  obtain ⟨e, he, hdest⟩ := siFindTakenEdge_eq hs hedges (fakeTree B type v1)
  refine ⟨fakeTree B type v1, ?_, fakeTree_eq B hlen hle hv⟩
  unfold decGimpleSwitch
  rw [hread]
  simp only [hfind, hget, he, Option.map_some, hdest]

/-- **The block for the index is decoded next exactly where the index is read right**, or the
    number that is read instead is in a label with the same block. -/
theorem switch_exact (E : DataEnv) (B : MemcpyBits) (rand : List Nat → Nat) (fuel : Nat) (g : Cfg)
    (labelToBlock : Nat → Nat) (s : SwitchStmt) (type : IndexType) (h h' : DsHeap)
    (index : DsvLoc) (v : Int) (hs : s.Sorted) (hedges : s.HasEdges g labelToBlock)
    (hle : type.bytes ≤ 8) (hindex : HoldsIndex E rand fuel type h index v h') :
    decGimpleSwitch E B rand fuel g labelToBlock s type h index =
        some (h', some (s.blockOf labelToBlock v)) ↔
      type.ReadRight v ∨
        s.blockOf labelToBlock (type.misread v) = s.blockOf labelToBlock v := by
  obtain ⟨val, hval, hright, hwrong⟩ := decGimpleSwitch_eq (B := B) hs hedges hle hindex
  rw [hval]
  by_cases hread : type.ReadRight v
  · rw [hright hread]
    exact iff_of_true rfl (Or.inl hread)
  · rw [hwrong hread]
    constructor
    · intro heq
      exact Or.inr (Option.some.inj (Prod.mk.inj (Option.some.inj heq)).2)
    · rintro (hno | heq)
      · exact absurd hno hread
      · rw [heq]

/-! ## A negative label -/

/-- `switch (i) { case -1: ... }` in block 1: the default label is that of block 2. -/
def minusOneStmt : SwitchStmt := ⟨1, 0, [⟨-1, none, 1⟩]⟩

def minusOneCfg : Cfg :=
  .ofEdges [⟨0, 1, true⟩, ⟨1, 2, false⟩, ⟨1, 3, false⟩] 0 1 (fun _ => false) (fun _ => true)
    (by decide) (by decide) (by decide)

/-- The data states hold an `int`. -/
def intHeap (v : Int) : DsHeap := fun _ => .sec1 0 .intCst (spell 4 v)

theorem minusOne_sorted : minusOneStmt.Sorted := ⟨by decide, by decide⟩

theorem minusOne_hasEdges : minusOneStmt.HasEdges minusOneCfg (· + 2) := by
  rintro label (rfl | hlabel)
  · exact ⟨⟨1, 2, false⟩, by decide, rfl⟩
  · obtain rfl := List.mem_singleton.mp hlabel
    exact ⟨⟨1, 3, false⟩, by decide, rfl⟩

theorem intHeap_holds (v : Int) (hv : (v % 256 ^ 4).bmod (2 ^ 32) = v) :
    HoldsIndex (plainEnv .other) (fun _ => 0) 1 ⟨true, 4⟩ (intHeap v) (dsVal 0) v (intHeap v) := by
  refine ⟨[dsVal 0], dsVal 0, 0, spell 4 v, rfl, rfl, rfl, ?_, ?_⟩
  · rw [length_spell]
  · unfold bytesInt wrap
    rw [if_pos rfl, length_spell, bytesNat_spell]
    exact hv

theorem switch_exact_minusOne :
    decGimpleSwitch (plainEnv .other) .plain (fun _ => 0) 1 minusOneCfg (· + 2) minusOneStmt
        ⟨true, 4⟩ (intHeap 5) (dsVal 0) =
        some (intHeap 5, some (minusOneStmt.blockOf (· + 2) 5)) ↔
      (⟨true, 4⟩ : IndexType).ReadRight 5 ∨
        minusOneStmt.blockOf (· + 2) ((⟨true, 4⟩ : IndexType).misread 5) =
          minusOneStmt.blockOf (· + 2) 5 :=
  switch_exact _ _ _ _ _ _ _ _ _ _ _ _ minusOne_sorted minusOne_hasEdges (by decide)
    (intHeap_holds 5 rfl)

/-- The index -1 is in the case -1, and the default label's block is decoded. -/
theorem minus_one_goes_to_default :
    minusOneStmt.blockOf (· + 2) (-1) = 3 ∧
      decGimpleSwitch (plainEnv .other) .plain (fun _ => 0) 1 minusOneCfg (· + 2) minusOneStmt
        ⟨true, 4⟩ (intHeap (-1)) (dsVal 0) = some (intHeap (-1), some 2) := by
  refine ⟨rfl, ?_⟩
  obtain ⟨val, hval, -, hwrong⟩ := decGimpleSwitch_eq (B := .plain) minusOne_sorted
    minusOne_hasEdges (by decide) (intHeap_holds (-1) rfl)
  rw [hval, hwrong (by decide)]
  rfl

end Srcinv.Analysis
