import Srcinv.Analysis.Assign
import Srcinv.Analysis.DsCount

/-!
# Computing with two values (`dsv_compute`, `analysis/data-state.c`)

The operands are copied to the stack, an address is replaced by the number of the pointer with the
offset added, and clib computes with the two numbers.  The copies hold what the operands point at.

* `dsvCompute_eq` — of two values that are no constructors the result is that of the numbers, and
  **the heap is as it was**, whichever way the function is left.
* `dsvCompute_exact` — it is left with a reference too many exactly where the right operand is a
  constructor and the left one points at a data state; and two addresses are told apart exactly
  where the pointers with the offsets added are, although the offset is in bits.
-/

namespace Srcinv.Analysis

open Srcinv.Lib

/-- What `dsv_compute` has from outside: where the data states are in memory, the bits
    `info.v1_info.sign`, and `clib_compute_bits`, which compares two numbers with their signs. -/
structure ComputeEnv where
  addr : Nat → Nat
  sign : DsvLoc → Bool
  compute : ComputeFlag → List Nat × Bool → List Nat × Bool → Option Int
  compute_compare : ∀ v w : List Nat × Bool, compute .compare v w = some (Int.sign
    (wrap v.2 (8 * v.1.length) (bytesNat v.1) - wrap w.2 (8 * w.1.length) (bytesNat w.1)))

namespace ComputeEnv

variable (C : ComputeEnv)

/-- `(char *)ds + offset`, as a number. -/
def ptr (v2 : DataStateValRef) : Int :=
  ((v2.ds.map fun ds => (C.addr ds : Int)).getD 0 + v2.offset) % 2 ^ 64

/-- `__dsv_compute`: `some none` is -1, and `none` the `BUG()` of a comparison that there is not. -/
def computeBits (flag : ComputeFlag) (extraFlag : Option CompareFlag) (l r : List Nat × Bool) :
    Option (Option Int) :=
  match C.compute flag l r with
  | none => some none
  | some x =>
    match flag with
    | .compare => extraFlag.map fun extra => some (if extra.holds x then 1 else 0)
    | _ => some (some x)

end ComputeEnv

namespace RwHeap

variable (C : ComputeEnv) (fuel : Nat)

/-- `dsv_copy_data` to a zeroed value on the stack, which no reference can be to: the copy, if there
    is one. -/
def copyFake (h : RwHeap) (src : DataStateVal) : Option (RwHeap × Option DataStateVal) :=
  if ¬ (DataStateVal.unk 0).copyable src then some (h, none)
  else (src.refs.foldlM rcHold h).map (·, some src.copy)

/-- `dsv_free_data` of a value on the stack. -/
def freeFake (h : RwHeap) (fake : DataStateVal) : Option RwHeap :=
  fake.refs.foldlM (rcDrop DsRw.refs fuel) h

/-- The loop over the operands: what becomes of the copy `fake` of `cur`, or `goto out`. -/
def fakeOperand (h : RwHeap) (cur fake : DataStateVal) : Option (RwHeap × Option DataStateVal) :=
  match cur with
  | .sec1 .. => some (h, some fake)
  | .sec2 _ .addr v2 =>
    (h.freeFake fuel fake).map (·, some (.sec1 fake.raw .intCst (spell 8 (C.ptr v2))))
  | _ => some (h, none)

/-- `out`. -/
def freeFakes (h : RwHeap) (fakeL fakeR : DataStateVal) (err : Option Int) :
    Option (RwHeap × Option Int) := do
  let h ← h.freeFake fuel fakeL
  let h ← h.freeFake fuel fakeR
  some (h, err)

/-- What follows the loop.  Two copies that are not both integers are not freed. -/
def computeFakes (h : RwHeap) (fakeL fakeR : DataStateVal) (signL signR : Bool)
    (flag : ComputeFlag) (extraFlag : Option CompareFlag) : Option (RwHeap × Option Int) :=
  match fakeL, fakeR with
  | .sec1 _ .intCst v1, .sec1 _ .intCst w1 => do
    let res ← C.computeBits flag extraFlag (v1, signL) (w1, signR)
    h.freeFakes fuel fakeL fakeR res
  | _, _ => some (h, none)

/-- `dsv_compute`: the heap, and `*retval` if it was computed.  `none` says that freed memory is
    used or that a `BUG` fires. -/
def dsvCompute (h : RwHeap) (l r : DsvLoc) (flag : ComputeFlag) (extraFlag : Option CompareFlag) :
    Option (RwHeap × Option Int) := do
  let v ← h.get? l
  match ← h.copyFake v with
  | (h, none) => some (h, none)
  | (h, some fakeL) =>
    let w ← h.get? r
    match ← h.copyFake w with
    | (h, none) => some (h, none)
    | (h, some fakeR) =>
      let v ← h.get? l
      match ← h.fakeOperand C fuel v fakeL with
      | (h, none) => h.freeFakes fuel fakeL fakeR none
      | (h, some fakeL) =>
        let w ← h.get? r
        match ← h.fakeOperand C fuel w fakeR with
        | (h, none) => h.freeFakes fuel fakeL fakeR none
        | (h, some fakeR) => h.computeFakes C fuel fakeL fakeR (C.sign l) (C.sign r) flag extraFlag

end RwHeap

/-! ## What is computed -/

/-- The number that an operand is taken for; none for other values. -/
def ComputeEnv.operand (C : ComputeEnv) : DataStateVal → Option DataStateVal
  | .sec1 raw type v1 => some (.sec1 raw type v1)
  | .sec2 raw .addr v2 => some (.sec1 raw .intCst (spell 8 (C.ptr v2)))
  | _ => none

/-- The result for two operands. -/
def ComputeEnv.result (C : ComputeEnv) (flag : ComputeFlag) (extraFlag : Option CompareFlag)
    (v w : DataStateVal) (signL signR : Bool) : Option (Option Int) :=
  match C.operand v, C.operand w with
  | some (.sec1 _ .intCst v1), some (.sec1 _ .intCst w1) =>
    C.computeBits flag extraFlag (v1, signL) (w1, signR)
  | _, _ => some none

theorem copyable_unk {v : DataStateVal} {raw : Nat} :
    (DataStateVal.unk raw).copyable v = true ↔ ¬ v.isConstructor := by
  cases v with
  | sec1 raw type v1 => cases type <;> simp [DataStateVal.copyable, DataStateVal.isConstructor,
      DataStateVal.type]
  | sec2 raw type v2 => cases type <;> simp [DataStateVal.copyable, DataStateVal.isConstructor,
      DataStateVal.type]
  | _ => simp [DataStateVal.copyable, DataStateVal.isConstructor, DataStateVal.type]

/-! ## The references of the copies -/

/-- A heap with the values of `h`, in which `held` is held on top. -/
structure Holding (S : Finset Nat) (roots : Nat → Nat) (h h' : RwHeap) (held : List Nat) :
    Prop where
  balanced : DsBalanced S h' roots held
  same : SameVals h h'
  there : ∀ ds ∈ held, (h ds).isSome

namespace Holding

variable {S : Finset Nat} {roots : Nat → Nat} {h h' : RwHeap} {held : List Nat} {fuel : Nat}

theorem get? (hh : Holding S roots h h' held) (t : DsvLoc) : h'.get? t = h.get? t :=
  RwHeap.get?_of_same hh.same

/-- Nothing held on top: the heap is `h`. -/
theorem eq (hb : DsBalanced S h roots []) (hh : Holding S roots h h' []) : h' = h :=
  hb.unique hh.balanced hh.same

theorem copyFake (hb : DsBalanced S h roots []) (hh : Holding S roots h h' held)
    {t : DsvLoc} {v : DataStateVal} (hv : h.get? t = some v) (hnot : ¬ v.isConstructor) :
    ∃ h₁, h'.copyFake v = some (h₁, some v) ∧ Holding S roots h h₁ (v.refs ++ held) := by
  have hthere : ∀ ds ∈ v.refs, (h ds).isSome := fun ds hds => pointed_there hb hv hds
  obtain ⟨h₁, hx, hb₁, hsame⟩ := hh.balanced.holdAll (l := v.refs) fun ds hds => by
    rw [hh.same.isSome]
    exact hthere ds hds
  refine ⟨h₁, ?_, hb₁, hh.same.trans hsame, fun ds hds => ?_⟩
  · unfold RwHeap.copyFake
    rw [if_neg (not_not.mpr (copyable_unk.mpr hnot)), hx, DataStateVal.copy_eq]
    rfl
  · rcases List.mem_append.mp hds with hds | hds
    · exact hthere ds hds
    · exact hh.there ds hds

theorem freeFake (hb : DsBalanced S h roots []) (hfuel : S.card ≤ fuel) {fake : DataStateVal}
    (hh : Holding S roots h h' (fake.refs ++ held)) :
    ∃ h₁, h'.freeFake fuel fake = some h₁ ∧ Holding S roots h h₁ held := by
  unfold RwHeap.freeFake
  cases hrefs : fake.refs with
  | nil =>
    rw [hrefs, List.nil_append] at hh
    exact ⟨h', rfl, hh⟩
  | cons ds l =>
    rw [← hrefs]
    have hthere : ∀ i ∈ fake.refs, (h i).isSome := fun i hi =>
      hh.there i (List.mem_append_left held hi)
    -- what is held on top is counted otherwise, too
    have hother : ∀ i ∈ fake.refs, 0 < owners DsRw.refs S h' roots held i := by
      intro i hi
      have hpos := (hb.there i).mp (hthere i hi)
      rw [owners_of_same hh.same]
      unfold owners at hpos ⊢
      rw [List.count_nil] at hpos
      omega
    have hmade : ds ∈ S := hb.made ds (hthere ds (by rw [hrefs]; exact List.mem_cons_self))
    have hcard : 0 < S.card := Finset.card_pos.mpr ⟨ds, hmade⟩
    obtain ⟨k, rfl⟩ : ∃ k, fuel = k + 1 := ⟨fuel - 1, by omega⟩
    obtain ⟨h₁, hx, hb₁, hsame⟩ := hh.balanced.releaseAll hother k
    exact ⟨h₁, hx, hb₁, hh.same.trans hsame, fun i hi =>
      hh.there i (List.mem_append_right fake.refs hi)⟩

theorem comm {l l' : List Nat} (hh : Holding S roots h h' (l ++ l')) :
    Holding S roots h h' (l' ++ l) := by
  refine ⟨hh.balanced.reroot fun j => ?_, hh.same, fun ds hds => hh.there ds ?_⟩
  · rw [List.count_append, List.count_append]
    omega
  · exact List.mem_append.mpr (List.mem_append.mp hds).symm

theorem freeFakes (hb : DsBalanced S h roots []) (hfuel : S.card ≤ fuel)
    {fakeL fakeR : DataStateVal} (hh : Holding S roots h h' (fakeL.refs ++ fakeR.refs))
    (err : Option Int) : h'.freeFakes fuel fakeL fakeR err = some (h, err) := by
  obtain ⟨h₁, hx₁, hh₁⟩ := hh.freeFake hb hfuel
  rw [← List.append_nil fakeR.refs] at hh₁
  obtain ⟨h₂, hx₂, hh₂⟩ := hh₁.freeFake hb hfuel
  unfold RwHeap.freeFakes
  simp only [hx₁, hx₂, Option.bind_eq_bind, Option.bind_some, hh₂.eq hb]

/-- An operand is made a number: its copy keeps its references, or drops them. -/
theorem fakeOperand (hb : DsBalanced S h roots []) (hfuel : S.card ≤ fuel) (C : ComputeEnv)
    (v : DataStateVal) (hh : Holding S roots h h' (v.refs ++ held)) :
    ∃ h₁, h'.fakeOperand C fuel v v = some (h₁, C.operand v) ∧
      Holding S roots h h₁ (((C.operand v).getD v).refs ++ held) := by
  cases v with
  | sec2 raw type v2 =>
    cases type with
    | addr =>
      obtain ⟨h₁, hx, hh₁⟩ := hh.freeFake hb hfuel
      refine ⟨h₁, ?_, hh₁⟩
      rw [RwHeap.fakeOperand, hx]
      rfl
    | ref => exact ⟨h', rfl, hh⟩
  | _ => exact ⟨h', rfl, hh⟩

end Holding

/-! ## The run -/

section Run

variable {S : Finset Nat} {roots : Nat → Nat} {h : RwHeap} {fuel : Nat} {C : ComputeEnv}
  {l r : DsvLoc} {v w : DataStateVal} {flag : ComputeFlag} {extraFlag : Option CompareFlag}

/-- What follows the loop gives the result of the two numbers, and frees nothing but numbers. -/
theorem computeFakes_eq {fakeL fakeR : DataStateVal} {signL signR : Bool}
    (hl : C.operand v = some fakeL) (hr : C.operand w = some fakeR) :
    h.computeFakes C fuel fakeL fakeR signL signR flag extraFlag =
      (C.result flag extraFlag v w signL signR).map (h, ·) := by
  have hbits : ∀ raw v1 raw' v1', h.computeFakes C fuel (.sec1 raw .intCst v1)
      (.sec1 raw' .intCst v1') signL signR flag extraFlag =
        (C.computeBits flag extraFlag (v1, signL) (v1', signR)).map (h, ·) := by
    intro raw v1 raw' v1'
    rw [RwHeap.computeFakes]
    cases C.computeBits flag extraFlag (v1, signL) (v1', signR) <;> rfl
  unfold ComputeEnv.result
  rw [hl, hr]
  cases fakeL with
  | sec1 raw type v1 =>
    cases type with
    | intCst =>
      cases fakeR with
      | sec1 raw' type' v1' =>
        cases type' with
        | intCst => exact hbits raw v1 raw' v1'
        | realCst => rfl
      | _ => rfl
    | realCst => cases fakeR <;> rfl
  | _ => rfl

/-- **Two operands that are no constructors: the heap is as it was** on every way out. -/
theorem dsvCompute_eq (hb : DsBalanced S h roots []) (hfuel : S.card ≤ fuel)
    (hv : h.get? l = some v) (hw : h.get? r = some w) (hnot : ¬ v.isConstructor)
    (hnot' : ¬ w.isConstructor) :
    h.dsvCompute C fuel l r flag extraFlag =
      (C.result flag extraFlag v w (C.sign l) (C.sign r)).map (h, ·) := by
  have hh : Holding S roots h h [] := ⟨hb, .refl h, fun ds hds => by cases hds⟩
  obtain ⟨h₁, hx₁, hh₁⟩ := hh.copyFake hb hv hnot
  obtain ⟨h₂, hx₂, hh₂⟩ := hh₁.copyFake hb hw hnot'
  rw [List.append_nil] at hh₂
  obtain ⟨h₃, hx₃, hh₃⟩ := hh₂.comm.fakeOperand hb hfuel C v
  unfold RwHeap.dsvCompute
  simp only [hv, hw, hx₁, hx₂, hx₃, hh₁.get?, hh₂.get?, Option.bind_eq_bind, Option.bind_some]
  have hresult : C.operand v = none ∨ C.operand w = none →
      C.result flag extraFlag v w (C.sign l) (C.sign r) = some none := by
    unfold ComputeEnv.result
    rintro (hnone | hnone)
    · rw [hnone]
    · rw [hnone]
      cases C.operand v with
      | none => rfl
      | some fake => cases fake with
        | sec1 raw type v1 => cases type <;> rfl
        | _ => rfl
  cases hl : C.operand v with
  | none =>
    rw [hl] at hh₃
    rw [hresult (Or.inl hl)]
    exact hh₃.freeFakes hb hfuel none
  | some fakeL =>
    rw [hl] at hh₃
    obtain ⟨h₄, hx₄, hh₄⟩ := hh₃.comm.fakeOperand hb hfuel C w
    simp only [hh₃.get?, hw, hx₄, Option.bind_some]
    cases hr : C.operand w with
    | none =>
      rw [hr] at hh₄
      rw [hresult (Or.inr hr)]
      exact hh₄.comm.freeFakes hb hfuel none
    | some fakeR =>
      rw [hr] at hh₄
      have hnumL : fakeL.refs = [] := by
        unfold ComputeEnv.operand at hl
        split at hl <;> cases hl <;> rfl
      have hnumR : fakeR.refs = [] := by
        unfold ComputeEnv.operand at hr
        split at hr <;> cases hr <;> rfl
      simp only [Option.getD_some, hnumL, hnumR, List.append_nil] at hh₄
      rw [hh₄.eq hb]
      exact computeFakes_eq hl hr

/-- A constructor on the left: nothing is done. -/
theorem dsvCompute_left (hv : h.get? l = some v) (hv' : v.isConstructor) :
    h.dsvCompute C fuel l r flag extraFlag = some (h, none) := by
  unfold RwHeap.dsvCompute RwHeap.copyFake
  simp only [hv, copyable_unk, hv', not_true, not_false_iff, if_true, Option.bind_eq_bind,
    Option.bind_some]

/-- A constructor on the right: the copy of the left operand is not freed. -/
theorem dsvCompute_right (hb : DsBalanced S h roots []) (hv : h.get? l = some v)
    (hw : h.get? r = some w) (hnot : ¬ v.isConstructor) (hw' : w.isConstructor) :
    ∃ h', h.dsvCompute C fuel l r flag extraFlag = some (h', none) ∧
      DsBalanced S h' roots v.refs ∧ SameVals h h' := by
  have hh : Holding S roots h h [] := ⟨hb, .refl h, fun ds hds => by cases hds⟩
  obtain ⟨h₁, hx₁, hh₁⟩ := hh.copyFake hb hv hnot
  rw [List.append_nil] at hh₁
  refine ⟨h₁, ?_, hh₁.balanced, hh₁.same⟩
  unfold RwHeap.dsvCompute
  simp only [hv, hx₁, hh₁.get?, hw, Option.bind_eq_bind, Option.bind_some]
  simp only [RwHeap.copyFake, copyable_unk, hw', not_true, not_false_iff, if_true,
    Option.bind_some]

end Run

/-! ## Addresses as numbers -/

/-- Numbers of 64 bits are the same where the bits are, unless only one has a sign and the top bit
    is set. -/
theorem wrap_eq_wrap_iff {p q : Int} (hp : 0 ≤ p) (hp' : p < 2 ^ 64) (hq : 0 ≤ q)
    (hq' : q < 2 ^ 64) (s s' : Bool) :
    wrap s 64 p = wrap s' 64 q ↔ p = q ∧ (s = s' ∨ p < 2 ^ 63) := by
  have hmod : p % 2 ^ 64 = p := Int.emod_eq_of_lt hp hp'
  have hmod' : q % 2 ^ 64 = q := Int.emod_eq_of_lt hq hq'
  unfold wrap Int.bmod
  cases s <;> cases s' <;>
    simp only [Bool.false_eq_true, if_false, if_true, Nat.cast_pow, Nat.cast_ofNat, hmod, hmod',
      true_or, and_true, reduceCtorEq, false_or] <;> split <;> omega

/-- Two pointers are stored as numbers, and compared. -/
theorem compare_ptrs (C : ComputeEnv) (v2 w2 : DataStateValRef) (signL signR : Bool) :
    ∃ x, C.computeBits .compare (some .eq) (spell 8 (C.ptr v2), signL) (spell 8 (C.ptr w2), signR) =
      some (some x) ∧
        (x = 1 ↔ C.ptr v2 = C.ptr w2 ∧ (signL = signR ∨ C.ptr v2 < 2 ^ 63)) := by
  have hnum : ∀ v2, 0 ≤ C.ptr v2 ∧ C.ptr v2 < 2 ^ 64 ∧
      (bytesNat (spell 8 (C.ptr v2)) : Int) = C.ptr v2 := by
    intro v2
    have hpos : 0 ≤ C.ptr v2 := by
      unfold ComputeEnv.ptr
      omega
    have hlt : C.ptr v2 < 2 ^ 64 := by
      unfold ComputeEnv.ptr
      omega
    refine ⟨hpos, hlt, ?_⟩
    rw [bytesNat_spell]
    exact Int.emod_eq_of_lt hpos hlt
  obtain ⟨hp, hp', hv2⟩ := hnum v2
  obtain ⟨hq, hq', hw2⟩ := hnum w2
  unfold ComputeEnv.computeBits
  rw [C.compute_compare]
  refine ⟨_, rfl, ?_⟩
  rw [← wrap_eq_wrap_iff hp hp' hq hq' signL signR]
  simp only [length_spell, hv2, hw2, CompareFlag.holds, Int.sign_eq_zero_iff_zero, Int.sub_eq_zero,
    decide_eq_true_eq]
  split
  · rename_i heq
    exact ⟨fun _ => heq, fun _ => rfl⟩
  · rename_i hne
    exact ⟨fun h => (by cases h), fun heq => absurd heq hne⟩

/-- The pointers of two addresses, with the offsets added to them, tell what they point at. -/
structure PtrsTell (C : ComputeEnv) (signL signR : Bool) (v2 w2 : DataStateValRef) : Prop where
  apart : ¬ (v2.ds = w2.ds ∧ v2.offset = w2.offset) →
    C.ptr v2 ≠ C.ptr w2 ∨ signL ≠ signR ∧ 2 ^ 63 ≤ C.ptr v2
  alike : v2.ds = w2.ds ∧ v2.offset = w2.offset → signL = signR ∨ C.ptr v2 < 2 ^ 63

theorem ptrsTell_iff {C : ComputeEnv} {signL signR : Bool} {v2 w2 : DataStateValRef} :
    PtrsTell C signL signR v2 w2 ↔
      (C.ptr v2 = C.ptr w2 ∧ (signL = signR ∨ C.ptr v2 < 2 ^ 63) ↔
        v2.ds = w2.ds ∧ v2.offset = w2.offset) := by
  have hptr : v2.ds = w2.ds ∧ v2.offset = w2.offset → C.ptr v2 = C.ptr w2 := by
    rintro ⟨hds, hoff⟩
    unfold ComputeEnv.ptr
    rw [hds, hoff]
  constructor
  · intro ht
    refine ⟨fun ⟨heq, hsign⟩ => ?_, fun hsame => ⟨hptr hsame, ht.alike hsame⟩⟩
    by_contra hnot
    rcases ht.apart hnot with hne | ⟨hne, hle⟩
    · exact hne heq
    · rcases hsign with hs | hlt
      · exact hne hs
      · omega
  · intro hiff
    refine ⟨fun hnot => ?_, fun hsame => (hiff.mpr hsame).2⟩
    by_contra hno
    push Not at hno
    refine hnot (hiff.mp ⟨hno.1, ?_⟩)
    by_cases hs : signL = signR
    · exact Or.inl hs
    · exact Or.inr (hno.2 hs)

/-! ## The law -/

/-- **`dsv_compute` comes back; every counter and both operands are as they were, and addresses are
    equal exactly where they point to the same place.** -/
def ComputeRight (C : ComputeEnv) (fuel : Nat) (h : RwHeap) (l r : DsvLoc) (flag : ComputeFlag)
    (extraFlag : Option CompareFlag) : Prop :=
  ∃ h' res, h.dsvCompute C fuel l r flag extraFlag = some (h', res) ∧
    (∀ ds, (h' ds).map Counted.refcnt = (h ds).map Counted.refcnt) ∧
    h'.get? l = h.get? l ∧ h'.get? r = h.get? r ∧
    ∀ raw v2 raw' w2, flag = .compare → extraFlag = some .eq →
      h.get? l = some (.sec2 raw .addr v2) → h.get? r = some (.sec2 raw' .addr w2) →
      (res = some 1 ↔ v2.ds = w2.ds ∧ v2.offset = w2.offset)

/-- No copy is left behind, and no two places have one pointer. -/
structure ComputeFits (C : ComputeEnv) (h : RwHeap) (l r : DsvLoc) (flag : ComputeFlag)
    (extraFlag : Option CompareFlag) : Prop where
  noCopy : ∀ v w, h.get? l = some v → h.get? r = some w → w.isConstructor → ¬ v.isConstructor →
    v.refs = []
  ptrs : ∀ raw v2 raw' w2, flag = .compare → extraFlag = some .eq →
    h.get? l = some (.sec2 raw .addr v2) → h.get? r = some (.sec2 raw' .addr w2) →
    PtrsTell C (C.sign l) (C.sign r) v2 w2

section Law

variable {S : Finset Nat} {roots : Nat → Nat} {h : RwHeap} {fuel : Nat} {C : ComputeEnv}
  {l r : DsvLoc} {v w : DataStateVal} {flag : ComputeFlag} {extraFlag : Option CompareFlag}

theorem result_some (hflag : flag = .compare → extraFlag.isSome) (signL signR : Bool) :
    ∃ res, C.result flag extraFlag v w signL signR = some res := by
  have hbits : ∀ x y, ∃ res, C.computeBits flag extraFlag x y = some res := by
    intro x y
    unfold ComputeEnv.computeBits
    cases C.compute flag x y with
    | none => exact ⟨none, rfl⟩
    | some n =>
      cases flag with
      | compare =>
        obtain ⟨extra, rfl⟩ := Option.isSome_iff_exists.mp (hflag rfl)
        exact ⟨_, rfl⟩
      | _ => exact ⟨_, rfl⟩
  unfold ComputeEnv.result
  split
  · exact hbits _ _
  · exact ⟨none, rfl⟩

/-- **No operand a constructor.** -/
theorem computeRight_iff_ptrs (hb : DsBalanced S h roots []) (hfuel : S.card ≤ fuel)
    (hv : h.get? l = some v) (hw : h.get? r = some w) (hflag : flag = .compare → extraFlag.isSome)
    (hnot : ¬ v.isConstructor) (hnot' : ¬ w.isConstructor) :
    ComputeRight C fuel h l r flag extraFlag ↔ ComputeFits C h l r flag extraFlag := by
  obtain ⟨res, hres⟩ := result_some (C := C) (v := v) (w := w) hflag (C.sign l) (C.sign r)
  have hrun : h.dsvCompute C fuel l r flag extraFlag = some (h, res) := by
    rw [dsvCompute_eq hb hfuel hv hw hnot hnot', hres, Option.map_some]
  -- what a comparison of two addresses gives
  have hptrs : ∀ raw v2 raw' w2, flag = .compare → extraFlag = some .eq →
      h.get? l = some (.sec2 raw .addr v2) → h.get? r = some (.sec2 raw' .addr w2) →
      ((res = some 1 ↔ v2.ds = w2.ds ∧ v2.offset = w2.offset) ↔
        PtrsTell C (C.sign l) (C.sign r) v2 w2) := by
    rintro raw v2 raw' w2 rfl rfl hv2 hw2
    cases hv.symm.trans hv2
    cases hw.symm.trans hw2
    obtain ⟨x, hx, hone⟩ := compare_ptrs C v2 w2 (C.sign l) (C.sign r)
    cases hres.symm.trans hx
    rw [ptrsTell_iff, ← hone, Option.some_inj]
  constructor
  · rintro ⟨h', res', hrun', -, -, -, haddr⟩
    cases hrun.symm.trans hrun'
    refine ⟨fun v' w' _ hw' hcons => ?_, fun raw v2 raw' w2 hf he hv2 hw2 => ?_⟩
    · cases hw.symm.trans hw'
      exact absurd hcons hnot'
    · exact (hptrs raw v2 raw' w2 hf he hv2 hw2).mp (haddr raw v2 raw' w2 hf he hv2 hw2)
  · intro hfits
    refine ⟨h, res, hrun, fun _ => rfl, rfl, rfl, fun raw v2 raw' w2 hf he hv2 hw2 => ?_⟩
    exact (hptrs raw v2 raw' w2 hf he hv2 hw2).mpr (hfits.ptrs raw v2 raw' w2 hf he hv2 hw2)

/-- **`dsv_compute` keeps the law exactly where no copy is left behind and no two places have one
    pointer.** -/
theorem dsvCompute_exact (hb : DsBalanced S h roots []) (hfuel : S.card ≤ fuel)
    (hv : h.get? l = some v) (hw : h.get? r = some w)
    (hflag : flag = .compare → extraFlag.isSome) :
    ComputeRight C fuel h l r flag extraFlag ↔ ComputeFits C h l r flag extraFlag := by
  have hnoaddr : ∀ {raw v2}, ¬ (DataStateVal.sec2 raw .addr v2).isConstructor := by
    intro raw v2 hcons
    cases hcons
  by_cases hl : v.isConstructor
  · refine ⟨fun _ => ⟨fun v' w' hv' _ _ hnot => ?_, fun raw v2 raw' w2 _ _ hv2 => ?_⟩, fun _ => ?_⟩
    · cases hv.symm.trans hv'
      exact absurd hl hnot
    · cases hv.symm.trans hv2
      exact absurd hl hnoaddr
    · refine ⟨h, none, dsvCompute_left hv hl, fun _ => rfl, rfl, rfl, ?_⟩
      intro raw v2 raw' w2 _ _ hv2
      cases hv.symm.trans hv2
      exact absurd hl hnoaddr
  by_cases hr : w.isConstructor
  · obtain ⟨h', hrun, hb', hsame⟩ : ∃ h', h.dsvCompute C fuel l r flag extraFlag =
        some (h', none) ∧ DsBalanced S h' roots v.refs ∧ SameVals h h' :=
      dsvCompute_right hb hv hw hl hr
    constructor
    · rintro ⟨h₁, res, hrun', hcounts, -⟩
      cases hrun.symm.trans hrun'
      refine ⟨fun v' w' hv' hw' _ _ => ?_, fun raw v2 raw' w2 _ _ _ hw2 => ?_⟩
      · cases hv.symm.trans hv'
        -- a data state that the copy points at would be counted once more
        refine List.eq_nil_iff_forall_not_mem.mpr fun ds hds => ?_
        obtain ⟨c, hc⟩ := Option.isSome_iff_exists.mp (pointed_there hb hv hds)
        have hds' := hcounts ds
        rw [hc, Option.map_some] at hds'
        obtain ⟨c', hc', hcnt⟩ := Option.map_eq_some_iff.mp hds'
        have hright := hb.right ds c hc
        have hright' := hb'.right ds c' hc'
        rw [owners_of_same hsame] at hright'
        have hpos := List.count_pos_iff.mpr hds
        unfold owners at hright hright'
        rw [List.count_nil] at hright
        omega
      · cases hw.symm.trans hw2
        exact absurd hr hnoaddr
    · intro hfits
      have hnil := hfits.noCopy v w hv hw hr hl
      rw [hnil] at hb'
      cases hb.unique hb' hsame
      refine ⟨_, none, hrun, fun _ => rfl, rfl, rfl, fun raw v2 raw' w2 _ _ _ hw2 => ?_⟩
      cases hw.symm.trans hw2
      exact absurd hr hnoaddr
  · exact computeRight_iff_ptrs hb hfuel hv hw hflag hl hr

end Law

/-! ## A heap -/

/-- Data states in a row of memory, and a clib that only compares. -/
def rowEnv : ComputeEnv where
  addr ds := 4096 + 128 * ds
  sign _ := false
  compute flag v w :=
    match flag with
    | .compare => some (Int.sign
        (wrap v.2 (8 * v.1.length) (bytesNat v.1) - wrap w.2 (8 * w.1.length) (bytesNat w.1)))
    | _ => none
  compute_compare _ _ := rfl

/-- The address of bit 128 of the next data state, the address of a record, and the record. -/
def rowHeap : RwHeap
  | 0 => some ⟨1, dsInitBase 0 .vn, .sec2 0 .addr ⟨some 1, 128, 64⟩⟩
  | 1 => some ⟨1, dsInitBase 0 .vn, .sec2 0 .addr ⟨some 2, 0, 64⟩⟩
  | 2 => some ⟨1, dsInitBase 0 .vn, .sec3 0 false 8 [⟨0, 64, .unk 0⟩]⟩
  | _ => none

theorem three_cases (ds : Nat) : ds = 0 ∨ ds = 1 ∨ ds = 2 ∨ ∃ k, ds = k + 3 := by
  by_cases hlt : ds < 3
  · omega
  · exact Or.inr (Or.inr (Or.inr ⟨ds - 3, by omega⟩))

theorem rowHeap_balanced :
    DsBalanced {0, 1, 2} rowHeap (fun ds => if ds = 0 then 1 else 0) [] := by
  have howners : ∀ ds, owners DsRw.refs {0, 1, 2} rowHeap (fun ds => if ds = 0 then 1 else 0) []
      ds = if ds < 3 then 1 else 0 := by
    intro ds
    rcases three_cases ds with rfl | rfl | rfl | ⟨k, rfl⟩
    · decide
    · decide
    · decide
    · simp [owners, pointers, cellRefs, rowHeap, DsRw.refs, DataStateVal.refs,
        DataStateVal.refsElems]
  refine ⟨fun ds hds => ?_, fun ds c hc => ?_, fun ds => ?_⟩
  · rcases three_cases ds with rfl | rfl | rfl | ⟨k, rfl⟩
    · decide
    · decide
    · decide
    · cases hds
  · rw [howners]
    rcases three_cases ds with rfl | rfl | rfl | ⟨k, rfl⟩
    · cases hc
      rfl
    · cases hc
      rfl
    · cases hc
      rfl
    · cases hc
  · rw [howners]
    rcases three_cases ds with rfl | rfl | rfl | ⟨k, rfl⟩ <;> simp [rowHeap]

/-- The address of the record, and itself. -/
theorem dsvCompute_exact_self :
    ComputeRight rowEnv 3 rowHeap (dsVal 1) (dsVal 1) .compare (some .eq) := by
  refine (dsvCompute_exact rowHeap_balanced (by decide) rfl rfl fun _ => rfl).mpr
    ⟨fun v w _ hw hcons => ?_, fun raw v2 raw' w2 _ _ hv hw => ?_⟩
  · cases hw
    cases hcons
  · cases hv
    cases hw
    exact ⟨fun hne => absurd ⟨rfl, rfl⟩ hne, fun _ => Or.inl rfl⟩

/-- **Bit 128 of one data state has the pointer of the next; and a copy is left behind where the
    right operand is a constructor.** -/
theorem next_state_equal_and_copy_left :
    DsBalanced {0, 1, 2} rowHeap (fun ds => if ds = 0 then 1 else 0) [] ∧
      ¬ ComputeRight rowEnv 3 rowHeap (dsVal 0) (dsVal 1) .compare (some .eq) ∧
      ¬ ComputeRight rowEnv 3 rowHeap (dsVal 0) (dsVal 2) .compare (some .eq) := by
  refine ⟨rowHeap_balanced, ?_, ?_⟩
  · rintro ⟨h', res, hrun, -, -, -, haddr⟩
    have hres : (rowHeap.dsvCompute rowEnv 3 (dsVal 0) (dsVal 1) .compare (some .eq)).map Prod.snd =
        some (some 1) := by decide
    rw [hrun] at hres
    cases hres
    have heq := (haddr 0 ⟨some 1, 128, 64⟩ 0 ⟨some 2, 0, 64⟩ rfl rfl rfl rfl).mp rfl
    exact absurd heq.1 (by decide)
  · rintro ⟨h', res, hrun, hcounts, -⟩
    have hcnt : (rowHeap.dsvCompute rowEnv 3 (dsVal 0) (dsVal 2) .compare (some .eq)).bind
        (fun p => (p.1 1).map Counted.refcnt) = some 2 := by decide
    rw [hrun, Option.bind_some, hcounts 1] at hcnt
    exact absurd hcnt (by decide)

end Srcinv.Analysis
