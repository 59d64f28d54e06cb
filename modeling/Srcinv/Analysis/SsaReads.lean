import Srcinv.Analysis.SsaName
import Srcinv.Lib.Run

/-!
# What SSA names are read as (`analysis/gcc/c.cc`)

* `Isolated` — every name is read as the value that its latest definition gave it.
* `StepIsolates` — what that needs: no other version of the variable still refers to the data state
  of the variable, no reference is given as a value, and a phi does not read its own result from
  the variable.
* `reads_latest` — **names are isolated all along a run whose steps all are of that kind.**
* `address_overwritten` — `p_1 = &a; p_2 = &b;` changes `p_1`.
-/

namespace Srcinv.Analysis

open Srcinv.Lib

variable {E : DataEnv} (N : SsaNames E) (fuel : Nat)

/-! ## What must hold -/

/-- Reading the name `n`, by `get_ds_via_tree` and then `get_ds_val`, gives the value `w`. -/
def ReadsAs (h : DsHeap) (n : Nat) (w : DataStateVal) : Prop :=
  ∀ rand, ∃ fuel h₁ h₂ t u, ssaOperand N fuel rand h n = some h₁ ∧
    getDsVal E rand fuel h₁ (dsVal (N.own n)) 0 0 = some (h₂, some [t]) ∧
    h₂.get? t = some u ∧ u.Same w

/-- **Every name is read as the value that its latest definition gave it.** -/
def Isolated (s : SsaState) : Prop := ∀ n w, s.latest n = some w → ReadsAs N s.heap n w

/-- The data state that reading the data state `x` ends at, one reference at most. -/
def target (h : DsHeap) (x : Nat) : Nat :=
  match h x with
  | .sec2 _ .ref ⟨some v, _, _⟩ => v
  | _ => x

/-- No other version of the variable `v` refers to its data state. -/
def NoneRefers (h : DsHeap) (n : Nat) : Prop :=
  ∀ v, N.var n = some v → ∀ m, m ≠ n → N.var m = some v → (h (N.own m)).isRef = false

/-- **What isolates the names from each other.** -/
def StepIsolates (s : SsaState) : SsaEvent E → Prop
  | .assign n _ w _ _ => NoneRefers N s.heap n ∧ w.isRef = false
  | .callRet n w _ _ => NoneRefers N s.heap n ∧ w.1.isRef = false
  | .phi n m _ _ _ _ => NoneRefers N s.heap n ∧
      (m = n → ∀ v, N.var n = some v →
        (s.heap v).Same (s.heap (target s.heap (N.own n))))
  | .operand _ _ => True
  | .store _ _ => True

/-! ## Registers -/

namespace DataStateVal

variable {v w : DataStateVal}

theorem withRaw_raw (v : DataStateVal) : v.withRaw v.raw = v := by cases v <;> rfl

theorem same_withRaw (v : DataStateVal) (r : Nat) : (v.withRaw r).Same v := by
  unfold Same
  cases v <;> rfl

theorem Same.refl (v : DataStateVal) : v.Same v := rfl

theorem Same.trans {u : DataStateVal} (h : u.Same v) (h' : v.Same w) : u.Same w :=
  Eq.trans h h'

theorem isUnset_withRaw (v : DataStateVal) (r : Nat) : (v.withRaw r).isUnset = v.isUnset := by
  cases v <;> rfl

theorem isScalar_withRaw (v : DataStateVal) (r : Nat) : (v.withRaw r).isScalar = v.isScalar := by
  cases v with
  | sec2 raw type v2 => cases type <;> rfl
  | _ => rfl

theorem raw_withRaw (v : DataStateVal) (r : Nat) : (v.withRaw r).raw = r := by cases v <;> rfl

theorem Same.isUnset (h : v.Same w) : v.isUnset = w.isUnset := by
  rw [← isUnset_withRaw v 0, h, isUnset_withRaw]

theorem isScalar_refTarget (h : v.isScalar = true) : v.refTarget = none := by
  cases v with
  | sec2 raw type v2 =>
    cases type with
    | addr => rfl
    | ref => cases h
  | _ => rfl

theorem isScalar_isRef (h : v.isScalar = true) : v.isRef = false := by
  cases v with
  | sec2 raw type v2 =>
    cases type with
    | addr => rfl
    | ref => cases h
  | _ => rfl

/-- A value that is copied over a scalar is one, unless it is a reference. -/
theorem isScalar_of_copyable (h : v.isScalar = true) (hc : v.copyable w = true)
    (hw : w.isRef = false) : w.isScalar = true := by
  cases w with
  | sec3 =>
    cases v with
    | sec3 => cases h
    | _ => cases hc
  | sec2 raw type v2 =>
    cases type with
    | addr => rfl
    | ref => cases hw
  | _ => rfl

theorem copyable_of_scalar (hv : ∀ r s n e, v ≠ sec3 r s n e) (hw : w.isScalar = true) :
    v.copyable w = true := by
  cases v with
  | sec3 r s n e => exact absurd rfl (hv r s n e)
  | _ =>
    cases w with
    | sec3 => cases hw
    | _ => rfl

end DataStateVal

/-! ## `get_ds_via_tree` of a variable -/

variable {N} {h : DsHeap}

/-- The node that a variable has after it was looked up. -/
def varRaw (N : SsaNames E) (h : DsHeap) (v : Nat) : Nat := (N.initNode v).getD (h v).raw

theorem dsVrefSetv_scalar {t : DsvLoc} {raw : Nat} {v2 : DataStateValRef} {ds : Nat}
    (hget : h.get? t = some (.sec2 raw .ref v2)) (hds : (h ds).isScalar = true)
    (hne : dsVal ds ≠ t) (bits : Nat) :
    dsVrefSetv h t ds 0 bits = some (h.set t (.sec2 raw .ref ⟨some ds, 0, bits⟩), false) := by
  have hself : (some ds).map dsVal ≠ some t := fun heq => hne (Option.some.inj heq)
  unfold dsVrefSetv
  cases hv : h ds with
  | sec2 raw' type v2' =>
    cases type with
    | addr => exact dsVrefHoldSetv_eq hget hself 0 bits
    | ref => rw [hv] at hds; cases hds
  | _ => exact dsVrefHoldSetv_eq hget hself 0 bits

theorem setInitNode_spec (h : DsHeap) (v : Nat) :
    setInitNode N h v v = (h v).withRaw (varRaw N h v) ∧
      ∀ x, x ≠ v → setInitNode N h v x = h x := by
  unfold setInitNode varRaw
  cases N.initNode v with
  | none => exact ⟨(DataStateVal.withRaw_raw _).symm, fun _ _ => rfl⟩
  | some raw =>
    simp only [DsHeap.set, dsVal, DataStateVal.set]
    exact ⟨Function.update_self .., fun x hx => Function.update_of_ne hx ..⟩

theorem getDsVar_spec {v : Nat} (hv : v ≠ N.tmp) (hs : (h v).isScalar = true) :
    ∃ h', getDsVar N h v = some h' ∧ h' v = (h v).withRaw (varRaw N h v) ∧
      h' N.tmp = .sec2 (N.node v) .ref ⟨some v, 0, N.bits v⟩ ∧
      ∀ x, x ≠ v → x ≠ N.tmp → h' x = h x := by
  obtain ⟨hat, hother⟩ := setInitNode_spec (N := N) h v
  generalize hh₁ : setInitNode N h v = h₁ at hat hother
  obtain ⟨h₂, hh₂⟩ : ∃ h₂, h₂ = h₁.set (dsVal N.tmp) (.sec2 (N.node v) .ref ⟨none, 0, 0⟩) :=
    ⟨_, rfl⟩
  have hrest : ∀ x, x ≠ N.tmp → h₂ x = h₁ x := fun x hx => by
    rw [hh₂, set_dsVal h₁ rfl]
    exact Function.update_of_ne hx ..
  have hget : h₂.get? (dsVal N.tmp) = some (.sec2 (N.node v) .ref ⟨none, 0, 0⟩) := by
    rw [get?_dsVal h₂ rfl, hh₂, set_dsVal h₁ rfl]
    exact congrArg some (Function.update_self ..)
  have hvs : (h₂ v).isScalar = true := by
    rw [hrest v hv, hat, DataStateVal.isScalar_withRaw]
    exact hs
  have hne : dsVal v ≠ dsVal N.tmp := fun heq => hv (congrArg DsvLoc.ds heq)
  unfold getDsVar
  simp only [hh₁, ← hh₂, dsVrefSetv_scalar hget hvs hne, set_dsVal h₂ (t := dsVal N.tmp) rfl]
  refine ⟨_, rfl, ?_, Function.update_self .., fun x hx hxt => ?_⟩
  · exact (Function.update_of_ne hv ..).trans ((hrest v hv).trans hat)
  · exact (Function.update_of_ne hxt ..).trans ((hrest x hxt).trans (hother x hx))

/-- The state of the name refers to the variable's, whose value stays. -/
theorem ssaWrite_spec {n v : Nat} (hvar : N.var n = some v) (hs : (h v).isScalar = true) :
    ∃ h' raw, ssaWrite N h n v = some h' ∧
      h' (N.own n) = .sec2 raw .ref ⟨some v, 0, N.bits v⟩ ∧
      h' v = (h v).withRaw (varRaw N h v) ∧
      ∀ x, x ≠ N.own n → x ≠ v → x ≠ N.tmp → h' x = h x := by
  have hov : N.own n ≠ v := N.own_ne_var n n v hvar
  have hot : N.own n ≠ N.tmp := N.own_ne_tmp n
  obtain ⟨h₁, hx₁, hat, htmp, hother⟩ := getDsVar_spec (N.var_ne_tmp n v hvar) hs
  obtain ⟨raw, h₂, hx₂, hh₂⟩ : ∃ raw h₂, dsvAllocData h₁ (dsVal (N.own n)) (.sec2 .ref) = some h₂ ∧
      h₂ = Function.update h₁ (N.own n) (.sec2 raw .ref ⟨none, 0, 0⟩) := by
    unfold dsvAllocData
    rw [get?_dsVal h₁ rfl, Option.map_some, set_dsVal h₁ rfl]
    exact ⟨_, _, rfl, rfl⟩
  have hrest : ∀ x, x ≠ N.own n → h₂ x = h₁ x := fun x hx => by
    rw [hh₂]
    exact Function.update_of_ne hx ..
  have hset : dsVrefSetv h₂ (dsVal (N.own n)) N.tmp 0 (N.bits v) =
      some (h₂.set (dsVal (N.own n)) (.sec2 raw .ref ⟨some v, 0, N.bits v⟩), false) := by
    have hget : h₂.get? (dsVal (N.own n)) = some (.sec2 raw .ref ⟨none, 0, 0⟩) := by
      rw [get?_dsVal h₂ rfl, hh₂]
      exact congrArg some (Function.update_self ..)
    have hself : (some v).map dsVal ≠ some (dsVal (N.own n)) := fun heq =>
      hov (congrArg DsvLoc.ds (Option.some.inj heq)).symm
    unfold dsVrefSetv
    rw [hrest _ hot.symm, htmp]
    exact dsVrefHoldSetv_eq hget hself 0 (N.bits v)
  refine ⟨h₂.set (dsVal (N.own n)) (.sec2 raw .ref ⟨some v, 0, N.bits v⟩), raw, ?_, ?_, ?_,
    fun x hxo hxv hxt => ?_⟩
  · unfold ssaWrite
    simp only [hx₁, hx₂, hset, Option.bind_eq_bind, Option.bind_some]
  · rw [set_dsVal h₂ rfl]
    exact Function.update_self ..
  · rw [set_dsVal h₂ rfl]
    exact (Function.update_of_ne hov.symm ..).trans ((hrest v hov.symm).trans hat)
  · rw [set_dsVal h₂ rfl]
    exact (Function.update_of_ne hxo ..).trans ((hrest x hxo).trans (hother x hxv hxt))

/-! ## `get_ds_val` of a register -/

variable {fuel : Nat} {rand : List Nat → Nat} {offset : Int} {bits : Nat}

theorem getDsVal_ref {x v : Nat} {raw : Nat} {off : Int} {b : Nat}
    (hx : h x = .sec2 raw .ref ⟨some v, off, b⟩) :
    getDsVal E rand (fuel + 1) h (dsVal x) offset bits =
      getDsVal E rand fuel h (dsVal v) off b := by
  rw [getDsVal, get?_dsVal h rfl]
  simp only [dsVal, hx]
  rfl

theorem getDsVal_set {x : Nat} (hs : (h x).isScalar = true) (hset : (h x).isUnset = false)
    (rand : List Nat → Nat) (offset : Int) (bits fuel : Nat) :
    getDsVal E rand (fuel + 1) h (dsVal x) offset bits = some (h, some [dsVal x]) := by
  unfold getDsVal
  rw [get?_dsVal h rfl]
  simp only [dsVal, hset, Bool.false_eq_true, if_false]
  cases hv : h x with
  | sec2 raw type v2 =>
    cases type with
    | addr => rfl
    | ref => rw [hv] at hs; cases hs
  | sec3 => rw [hv] at hs; cases hs
  | _ => rfl

/-- A register that has a scalar, or can be given one. -/
def RegState (E : DataEnv) (u : DataStateVal) : Prop :=
  u.isScalar = true ∧ (u.isUnset = true → E.Register u.raw)

/-- A register that is initialised has a content then. -/
theorem initVal_set {u : DataStateVal} (hu : RegState E u) (hunset : u.isUnset = true)
    (hok : (dsvInitType rand (E.node u.raw).type [] u).2 = false) :
    (initVal E rand u).isScalar = true ∧ (initVal E rand u).isUnset = false := by
  have hscalar := (hu.2 hunset).2 rand u rfl hu.1
  refine ⟨hscalar, ?_⟩
  by_cases hempty : (E.node u.raw).type.isEmpty = true
  · obtain ⟨s, n, hval⟩ := dsvInitType_empty rand hempty [] u
    rw [initVal, hval, E.fill_empty] at hscalar
    cases hscalar
  · obtain herr | ⟨hset, -⟩ := dsvInitType_settled rand (by simpa using hempty) [] u
    · cases hok.symm.trans herr
    · exact E.fill_set _ _ hset

/-- Reading a register gives its state, which is initialised if need be. -/
theorem getDsVal_reg {x : Nat} (hu : RegState E (h x)) {h' : DsHeap} {locs : List DsvLoc}
    (hx : getDsVal E rand fuel h (dsVal x) offset bits = some (h', some locs)) :
    locs = [dsVal x] ∧ ∃ u, h' = Function.update h x u ∧ u.isScalar = true ∧ u.isUnset = false ∧
      ((h x).isUnset = false → u = h x) := by
  cases fuel with
  | zero => cases hx
  | succ fuel =>
    by_cases hunset : (h x).isUnset = true
    · unfold getDsVal at hx
      rw [get?_dsVal h rfl] at hx
      simp only [dsVal, hunset, if_true, dsvInit_eq (hu.2 hunset).1] at hx
      by_cases herr : (dsvInitType rand (E.node (h x).raw).type [] (h x)).2 = true
      · rw [if_pos herr] at hx
        cases hx
      · rw [if_neg herr] at hx
        obtain ⟨hscalar, hset⟩ := initVal_set hu hunset (by simpa using herr)
        cases fuel with
        | zero => cases hx
        | succ fuel =>
          have hat : h.set (dsVal x) (initVal E rand (h x)) x = initVal E rand (h x) := by
            rw [set_dsVal h rfl]
            exact Function.update_self ..
          rw [← hat] at hscalar hset
          have hread := getDsVal_set (E := E) hscalar hset rand offset bits fuel
          rw [dsVal] at hread
          rw [hread] at hx
          cases hx
          rw [hat] at hscalar hset
          exact ⟨rfl, _, set_dsVal h rfl _, hscalar, hset, fun hno => absurd hunset (by simp [hno])⟩
    · have hset : (h x).isUnset = false := by simpa using hunset
      rw [getDsVal_set hu.1 hset rand offset bits fuel] at hx
      cases hx
      exact ⟨rfl, h x, (Function.update_eq_self x h).symm, hu.1, hset, fun _ => rfl⟩

/-! ## The invariant -/

/-- The state of a name has a scalar, or refers to its variable. -/
def OwnState (N : SsaNames E) (h : DsHeap) (n : Nat) : Prop :=
  ((h (N.own n)).isScalar = true ∧
      ((h (N.own n)).isUnset = true → N.defaultDef n = false → E.Register (h (N.own n)).raw)) ∨
    ∃ v raw off b, N.var n = some v ∧ h (N.own n) = .sec2 raw .ref ⟨some v, off, b⟩

/-- Variables have scalars, names have one or refer to their variable, and what a name leads to is
    the value that its latest definition gave it. -/
structure SsaInv (N : SsaNames E) (h : DsHeap) (latest : Nat → Option DataStateVal) : Prop where
  vars : ∀ n v, N.var n = some v → RegState E (h v)
  owns : ∀ n, OwnState N h n
  latest : ∀ n w, latest n = some w → w.isUnset = false ∧ (h (target h (N.own n))).Same w

/-- What has a content keeps it. -/
structure Filled (N : SsaNames E) (h h' : DsHeap) : Prop where
  owns : ∀ n, h' (N.own n) = h (N.own n) ∨ (h (N.own n)).isUnset = true ∧
    (h' (N.own n)).isScalar = true ∧ (h' (N.own n)).isUnset = false
  vars : ∀ n v, N.var n = some v → (h v).isUnset = false → (h' v).Same (h v)

variable {h' : DsHeap} {latest : Nat → Option DataStateVal} {n : Nat}

theorem target_ref {x v raw : Nat} {off : Int} {b : Nat}
    (hx : h x = .sec2 raw .ref ⟨some v, off, b⟩) : target h x = v := by
  unfold target
  rw [hx]

theorem target_scalar {x : Nat} (hx : (h x).isScalar = true) : target h x = x := by
  unfold target
  cases hv : h x with
  | sec2 raw type v2 =>
    cases type with
    | addr => rfl
    | ref => rw [hv] at hx; cases hx
  | _ => rfl

theorem target_congr {x : Nat} (hx : h' x = h x) : target h' x = target h x := by
  unfold target
  rw [hx]

theorem Filled.refl (h : DsHeap) : Filled N h h := ⟨fun _ => Or.inl rfl, fun _ _ _ _ => .refl _⟩

theorem Filled.trans {h'' : DsHeap} (h₁ : Filled N h h') (h₂ : Filled N h' h'') :
    Filled N h h'' := by
  refine ⟨fun n => ?_, fun n v hvar hset => ?_⟩
  · obtain heq | ⟨hunset, hscalar, hset⟩ := h₁.owns n
    · obtain heq' | ⟨hunset, hrest⟩ := h₂.owns n
      · exact Or.inl (heq'.trans heq)
      · exact Or.inr ⟨heq ▸ hunset, hrest⟩
    · obtain heq' | ⟨hunset', -⟩ := h₂.owns n
      · exact Or.inr ⟨hunset, by rw [heq']; exact ⟨hscalar, hset⟩⟩
      · exact absurd hunset' (by simp [hset])
  · have hsame := h₁.vars n v hvar hset
    exact (h₂.vars n v hvar (hsame.isUnset.trans hset)).trans hsame

/-- A name that refers to its variable still does, and no other one begins to. -/
theorem Filled.isRef (hs : Filled N h h') (n : Nat) :
    (h' (N.own n)).isRef = (h (N.own n)).isRef := by
  obtain heq | ⟨hunset, hscalar, -⟩ := hs.owns n
  · rw [heq]
  · rw [DataStateVal.isScalar_isRef hscalar]
    cases hv : h (N.own n) with
    | sec2 raw type v2 => rw [hv] at hunset; cases hunset
    | _ => rfl

/-- Giving a content to what has none keeps the invariant. -/
theorem SsaInv.settle (hi : SsaInv N h latest) (hs : Filled N h h')
    (hvars : ∀ n v, N.var n = some v → RegState E (h' v)) : SsaInv N h' latest := by
  refine ⟨hvars, fun n => ?_, fun n w hw => ?_⟩
  · obtain heq | ⟨-, hscalar, hset⟩ := hs.owns n
    · unfold OwnState
      rw [heq]
      exact hi.owns n
    · exact Or.inl ⟨hscalar, fun hunset => absurd hunset (by simp [hset])⟩
  · obtain ⟨hset, hsame⟩ := hi.latest n w hw
    refine ⟨hset, ?_⟩
    obtain heq | ⟨hunset, -⟩ := hs.owns n
    · rw [target_congr heq]
      obtain ⟨hscalar, -⟩ | ⟨v, raw, off, b, hvar, href⟩ := hi.owns n
      · rw [target_scalar hscalar] at hsame ⊢
        rw [heq]
        exact hsame
      · rw [target_ref href] at hsame ⊢
        exact (hs.vars n v hvar (hsame.isUnset.trans hset)).trans hsame
    · -- a name without content was given none
      obtain ⟨hscalar, -⟩ | ⟨v, raw, off, b, -, href⟩ := hi.owns n
      · rw [target_scalar hscalar] at hsame
        exact absurd (hsame.isUnset.symm.trans hunset) (by simp [hset])
      · rw [href] at hunset
        cases hunset

/-- A state gets a content that it had not. -/
theorem settles_update {x : Nat} {u : DataStateVal} (hscalar : u.isScalar = true)
    (hset : u.isUnset = false) (hkeep : (h x).isUnset = false → u = h x) :
    Filled N h (Function.update h x u) := by
  refine ⟨fun n => ?_, fun n v _ hv => ?_⟩
  · by_cases heq : N.own n = x
    · rw [heq, Function.update_self]
      by_cases hunset : (h x).isUnset = true
      · exact Or.inr ⟨hunset, hscalar, hset⟩
      · exact Or.inl (hkeep (by simpa using hunset))
    · exact Or.inl (Function.update_of_ne heq ..)
  · by_cases heq : v = x
    · rw [heq, Function.update_self]
      rw [heq] at hv
      exact hkeep hv ▸ .refl _
    · rw [Function.update_of_ne heq]
      exact .refl _

theorem regState_update (hi : SsaInv N h latest) {x : Nat} {u : DataStateVal} (hu : RegState E u) :
    ∀ n v, N.var n = some v → RegState E (Function.update h x u v) := by
  intro n v hvar
  by_cases heq : v = x
  · rw [heq, Function.update_self]
    exact hu
  · rw [Function.update_of_ne heq]
    exact hi.vars n v hvar

theorem regState_set {u : DataStateVal} (hscalar : u.isScalar = true) (hset : u.isUnset = false) :
    RegState E u := ⟨hscalar, fun hunset => absurd hunset (by simp [hset])⟩

/-- A name that is ready to be read: it has a content, or its node gives it one. -/
def Ready (E : DataEnv) (u : DataStateVal) : Prop := u.isUnset = true → E.Register u.raw

/-- Reading a name ends at one data state, which is given a content if it has none. -/
theorem read_eq (hi : SsaInv N h latest) (hready : Ready E (h (N.own n)))
    {locs : List DsvLoc}
    (hx : getDsVal E rand fuel h (dsVal (N.own n)) offset bits = some (h', some locs)) :
    locs = [dsVal (target h (N.own n))] ∧ ∃ u,
      h' = Function.update h (target h (N.own n)) u ∧ u.isScalar = true ∧ u.isUnset = false ∧
        ((h (target h (N.own n))).isUnset = false → u = h (target h (N.own n))) := by
  obtain ⟨hscalar, -⟩ | ⟨v, raw, off, b, hvar, href⟩ := hi.owns n
  · rw [target_scalar hscalar]
    exact getDsVal_reg ⟨hscalar, hready⟩ hx
  · cases fuel with
    | zero => cases hx
    | succ fuel =>
      rw [getDsVal_ref href] at hx
      rw [target_ref href]
      exact getDsVal_reg (hi.vars n v hvar) hx

/-- **Reading a name** keeps the invariant. -/
theorem read_inv (hi : SsaInv N h latest) (hready : Ready E (h (N.own n)))
    {locs : List DsvLoc}
    (hx : getDsVal E rand fuel h (dsVal (N.own n)) offset bits = some (h', some locs)) :
    locs = [dsVal (target h (N.own n))] ∧ SsaInv N h' latest ∧ Filled N h h' ∧
      (h' (target h (N.own n))).isScalar = true ∧ (h' (target h (N.own n))).isUnset = false := by
  obtain ⟨rfl, u, rfl, hscalar, hset, hkeep⟩ := read_eq hi hready hx
  have hs := settles_update (N := N) hscalar hset hkeep
  refine ⟨rfl, hi.settle hs (regState_update hi (regState_set hscalar hset)), hs, ?_⟩
  rw [Function.update_self]
  exact ⟨hscalar, hset⟩

/-! ## Copies -/

theorem overlaps_dsVal {x y : Nat} (hne : x ≠ y) : ¬ (dsVal x).Overlaps (dsVal y) :=
  fun hover => hne hover.1

/-- A scalar goes over a state that is no constructor. -/
theorem copyForce_scalar {x y : Nat} (hne : x ≠ y) (hy : (h y).isScalar = true) :
    dsvCopyDataForce h (dsVal x) (dsVal y) = some (Function.update h x (h y), false) := by
  rw [dsvCopyDataForce_eq (get?_dsVal h rfl) (get?_dsVal h rfl)
    (fun heq => hne (congrArg DsvLoc.ds heq)) (overlaps_dsVal hne), set_dsVal h rfl]
  · rfl
  · rw [show (dsVal y).ds = y from rfl, DataStateVal.isScalar_refTarget hy]
    exact fun heq => (by cases heq)

theorem copy_scalar {x y : Nat} (hne : x ≠ y) (hx : ∀ r s n e, h x ≠ .sec3 r s n e)
    (hy : (h y).isScalar = true) :
    dsvCopyData h (dsVal x) (dsVal y) = some (Function.update h x (h y), false) := by
  have hloc : dsVal x ≠ dsVal y := fun heq => hne (congrArg DsvLoc.ds heq)
  unfold dsvCopyData
  rw [get?_dsVal h rfl, get?_dsVal h rfl]
  simp only [hloc, if_false]
  have hcopy : (h (dsVal x).ds).copyable (h (dsVal y).ds) = true :=
    DataStateVal.copyable_of_scalar hx hy
  rw [if_neg (not_not.mpr hcopy)]
  exact copyForce_scalar hne hy

/-! ## `get_ds_via_tree` of a name -/

theorem regState_withRaw (hi : SsaInv N h latest) {v : Nat} (hvar : N.var n = some v) :
    RegState E ((h v).withRaw (varRaw N h v)) := by
  obtain ⟨hscalar, hunset⟩ := hi.vars n v hvar
  refine ⟨by rw [DataStateVal.isScalar_withRaw]; exact hscalar, fun hu => ?_⟩
  rw [DataStateVal.isUnset_withRaw] at hu
  rw [DataStateVal.raw_withRaw]
  unfold varRaw
  cases hinit : N.initNode v with
  | none => exact hunset hu
  | some raw => exact N.init_register v raw hinit

/-- Looking up a variable changes its node only. -/
theorem getDsVar_inv (hi : SsaInv N h latest) {v : Nat} (hvar : N.var n = some v) :
    ∃ h', getDsVar N h v = some h' ∧ SsaInv N h' latest ∧ Filled N h h' ∧
      (∀ m, h' (N.own m) = h (N.own m)) ∧
      h' N.tmp = .sec2 (N.node v) .ref ⟨some v, 0, N.bits v⟩ := by
  obtain ⟨h', hx, hat, htmp, hother⟩ := getDsVar_spec (N.var_ne_tmp n v hvar) (hi.vars n v hvar).1
  have howns : ∀ m, h' (N.own m) = h (N.own m) := fun m =>
    hother _ (N.own_ne_var m n v hvar) (N.own_ne_tmp m)
  have hs : Filled N h h' := by
    refine ⟨fun m => Or.inl (howns m), fun m v' hvar' _ => ?_⟩
    by_cases heq : v' = v
    · rw [heq, hat]
      exact DataStateVal.same_withRaw ..
    · rw [hother v' heq (N.var_ne_tmp m v' hvar')]
      exact .refl _
  refine ⟨h', hx, hi.settle hs fun m v' hvar' => ?_, hs, howns, htmp⟩
  by_cases heq : v' = v
  · rw [heq, hat]
    exact regState_withRaw hi hvar
  · rw [hother v' heq (N.var_ne_tmp m v' hvar')]
    exact hi.vars m v' hvar'

theorem ready_of_owns (hi : SsaInv N h latest) (hdef : N.defaultDef n = false) :
    Ready E (h (N.own n)) := by
  intro hunset
  obtain ⟨-, hraw⟩ | ⟨v, raw, off, b, -, href⟩ := hi.owns n
  · exact hraw hunset hdef
  · rw [href] at hunset
    cases hunset

/-- A default definition that has no content yet is given that of its variable. -/
theorem default_copy (hi : SsaInv N h latest) {v : Nat} (hvar : N.var n = some v)
    (htmp : h N.tmp = .sec2 (N.node v) .ref ⟨some v, 0, N.bits v⟩)
    (hunk : (h (N.own n)).isUnset = true) {h₁ : DsHeap} {srcs : List DsvLoc}
    (hread : getDsVal E rand fuel h (dsVal N.tmp) 0 0 = some (h₁, some srcs))
    (hx : dsvCopyFromArg h₁ (dsVal (N.own n)) srcs = some h') :
    ∃ u, h' = Function.update (Function.update h v u) (N.own n) u ∧ u.isScalar = true ∧
      u.isUnset = false ∧ ((h v).isUnset = false → u = h v) := by
  cases fuel with
  | zero => cases hread
  | succ fuel =>
    rw [getDsVal_ref htmp] at hread
    obtain ⟨rfl, u, rfl, hscalar, hset, hkeep⟩ := getDsVal_reg (hi.vars n v hvar) hread
    have hne : N.own n ≠ v := N.own_ne_var n n v hvar
    have hat : Function.update h v u v = u := Function.update_self ..
    have hown : Function.update h v u (N.own n) = h (N.own n) := Function.update_of_ne hne ..
    have hcopy : dsvCopyData (Function.update h v u) (dsVal (N.own n)) (dsVal v) =
        some (Function.update (Function.update h v u) (N.own n) u, false) := by
      rw [copy_scalar hne ?_ (by rw [hat]; exact hscalar), hat]
      intro r s n' e heq
      obtain ⟨hsc, -⟩ | ⟨v', raw, off, b, -, href⟩ := hi.owns n
      · rw [← hown, heq] at hsc
        cases hsc
      · rw [href] at hunk
        cases hunk
    simp only [dsvCopyFromArg, hcopy, Option.some.injEq] at hx
    exact ⟨u, hx.symm, hscalar, hset, hkeep⟩

/-- It is ready to be read then. -/
theorem default_inv (hi : SsaInv N h latest) {v : Nat} (hvar : N.var n = some v)
    (htmp : h N.tmp = .sec2 (N.node v) .ref ⟨some v, 0, N.bits v⟩)
    (hunk : (h (N.own n)).isUnset = true) {h₁ : DsHeap} {srcs : List DsvLoc}
    (hread : getDsVal E rand fuel h (dsVal N.tmp) 0 0 = some (h₁, some srcs))
    (hx : dsvCopyFromArg h₁ (dsVal (N.own n)) srcs = some h') :
    SsaInv N h' latest ∧ Filled N h h' ∧ Ready E (h' (N.own n)) := by
  obtain ⟨u, rfl, hscalar, hset, hkeep⟩ := default_copy hi hvar htmp hunk hread hx
  have hne : N.own n ≠ v := N.own_ne_var n n v hvar
  have hs₁ := settles_update (N := N) hscalar hset hkeep
  have hi₁ := hi.settle hs₁ (regState_update hi (regState_set hscalar hset))
  have hs₂ := settles_update (N := N) (h := Function.update h v u) (x := N.own n) hscalar hset
    fun hno => by
      rw [Function.update_of_ne hne] at hno
      exact absurd hunk (by simp [hno])
  refine ⟨hi₁.settle hs₂ (regState_update hi₁ (regState_set hscalar hset)), hs₁.trans hs₂, ?_⟩
  intro hunset
  rw [Function.update_self] at hunset
  exact absurd hunset (by simp [hset])

/-- **Looking up a name to read it.** -/
theorem operand_inv (hi : SsaInv N h latest) (hx : ssaOperand N fuel rand h n = some h') :
    SsaInv N h' latest ∧ Filled N h h' ∧ Ready E (h' (N.own n)) := by
  unfold ssaOperand at hx
  split at hx
  · rename_i hvar
    cases hx
    exact ⟨hi, .refl _, ready_of_owns hi (N.default_var n hvar)⟩
  · rename_i v hvar
    obtain ⟨h₁, hx₁, hi₁, hs₁, howns, htmp⟩ := getDsVar_inv hi hvar
    simp only [hx₁, Option.bind_eq_bind, Option.bind_some] at hx
    split at hx
    · rename_i raw hdef hunk
      split at hx
      · rename_i h₂ srcs hread
        obtain ⟨hi₂, hs₂, hready⟩ :=
          default_inv hi₁ hvar htmp (by rw [hunk]; rfl) hread hx
        exact ⟨hi₂, hs₁.trans hs₂, hready⟩
      · cases hx
    · rename_i hno
      cases hx
      refine ⟨hi₁, hs₁, fun hunset => ?_⟩
      by_cases hdef : N.defaultDef n = true
      · -- a default definition is not taken over only when it has a content
        obtain ⟨hscalar, -⟩ | ⟨v', raw, off, b, -, href⟩ := hi₁.owns n
        · cases hv : h' (N.own n) with
          | unk raw => exact absurd hv (hno raw hdef)
          | sec3 => rw [hv] at hscalar; cases hscalar
          | _ => rw [hv] at hunset; cases hunset
        · rw [href] at hunset
          cases hunset
      · exact ready_of_owns hi₁ (by simpa using hdef) hunset

/-- **Looking up a name to write it**: it refers to its variable, and has no value of its own. -/
theorem write_inv (hi : SsaInv N h latest) {v : Nat} (hvar : N.var n = some v) :
    ∃ h' raw, ssaWrite N h n v = some h' ∧
      h' (N.own n) = .sec2 raw .ref ⟨some v, 0, N.bits v⟩ ∧
      SsaInv N h' (Function.update latest n none) ∧
      (∀ m, m ≠ n → h' (N.own m) = h (N.own m)) ∧
      ∀ m v', N.var m = some v' → (h' v').Same (h v') := by
  obtain ⟨h', raw, hx, hown, hat, hother⟩ := ssaWrite_spec hvar (hi.vars n v hvar).1
  have howns : ∀ m, m ≠ n → h' (N.own m) = h (N.own m) := fun m hne =>
    hother _ (fun heq => hne (N.own_inj m n heq)) (N.own_ne_var m n v hvar) (N.own_ne_tmp m)
  have hvars : ∀ m v', N.var m = some v' → (h' v').Same (h v') ∧ RegState E (h' v') := by
    intro m v' hvar'
    by_cases heq : v' = v
    · rw [heq, hat]
      exact ⟨DataStateVal.same_withRaw .., regState_withRaw hi hvar⟩
    · rw [hother v' (N.own_ne_var n m v' hvar').symm heq (N.var_ne_tmp m v' hvar')]
      exact ⟨.refl _, hi.vars m v' hvar'⟩
  refine ⟨h', raw, hx, hown, ⟨fun m v' hvar' => (hvars m v' hvar').2, fun m => ?_,
    fun m w hw => ?_⟩, howns, fun m v' hvar' => (hvars m v' hvar').1⟩
  · by_cases heq : m = n
    · exact heq ▸ Or.inr ⟨v, raw, 0, N.bits v, hvar, hown⟩
    · unfold OwnState
      rw [howns m heq]
      exact hi.owns m
  · by_cases heq : m = n
    · rw [heq, Function.update_self] at hw
      cases hw
    · rw [Function.update_of_ne heq] at hw
      obtain ⟨hset, hsame⟩ := hi.latest m w hw
      refine ⟨hset, ?_⟩
      rw [target_congr (howns m heq)]
      obtain ⟨hscalar, -⟩ | ⟨v', raw', off, b, hvar', href⟩ := hi.owns m
      · rw [target_scalar hscalar] at hsame ⊢
        rw [howns m heq]
        exact hsame
      · rw [target_ref href] at hsame ⊢
        exact (hvars m v' hvar').1.trans hsame

/-! ## Writing -/

theorem Filled.target (hs : Filled N h h') (ho : OwnState N h n) :
    target h' (N.own n) = Analysis.target h (N.own n) := by
  obtain heq | ⟨hunset, hscalar, -⟩ := hs.owns n
  · exact target_congr heq
  · rw [target_scalar hscalar]
    obtain ⟨hsc, -⟩ | ⟨v, raw, off, b, -, href⟩ := ho
    · rw [target_scalar hsc]
    · rw [href] at hunset
      cases hunset

/-- Names keep the values that they had, but for `n`. -/
theorem latest_update {w : DataStateVal} {given : Option DataStateVal}
    (hi : SsaInv N h latest)
    (hat : ∀ w', given = some w' → w'.isUnset = false ∧ (h' (target h' (N.own n))).Same w')
    (hrest : ∀ m, m ≠ n → latest m = some w →
      h' (target h' (N.own m)) = h (target h (N.own m))) :
    ∀ m, Function.update latest n given m = some w →
      w.isUnset = false ∧ (h' (target h' (N.own m))).Same w := by
  intro m hw
  by_cases heq : m = n
  · rw [heq, Function.update_self] at hw
    exact heq ▸ hat w hw
  · rw [Function.update_of_ne heq] at hw
    rw [hrest m heq hw]
    exact hi.latest m w hw

/-- What a value that is given is read as. -/
def GivenAs (w : DataStateVal) (o : Option DataStateVal) : Prop :=
  ∀ w', o = some w' → w'.isUnset = false ∧ w.Same w'

theorem givenAs_given (w : DataStateVal) : GivenAs w (given w) := by
  intro w' hw'
  unfold given at hw'
  split at hw'
  · cases hw'
  · rename_i hset
    cases hw'
    exact ⟨by simpa using hset, .refl _⟩

/-- The variable is written through the reference of the name. -/
theorem store_var (hi : SsaInv N h latest) {v raw : Nat} {off : Int} {b : Nat}
    (hvar : N.var n = some v) (href : h (N.own n) = .sec2 raw .ref ⟨some v, off, b⟩)
    (hno : ∀ m u, m ≠ n → N.var m = some v → latest m = some u → (h (N.own m)).isRef = false)
    {w : DataStateVal} (hw : RegState E w) {o : Option DataStateVal} (ho : GivenAs w o) :
    SsaInv N (Function.update h v w) (Function.update latest n o) := by
  have hown : ∀ m, Function.update h v w (N.own m) = h (N.own m) := fun m =>
    Function.update_of_ne (N.own_ne_var m n v hvar) ..
  refine ⟨regState_update hi hw, fun m => ?_, fun m w' => latest_update hi (fun w' hw' => ?_) ?_ m⟩
  · unfold OwnState
    rw [hown m]
    exact hi.owns m
  · rw [target_congr (hown n), target_ref href, Function.update_self]
    exact ho w' hw'
  · intro m hne hm
    rw [target_congr (hown m)]
    obtain ⟨hscalar, -⟩ | ⟨v', raw', off', b', hvar', href'⟩ := hi.owns m
    · rw [target_scalar hscalar, hown m]
    · rw [target_ref href']
      refine Function.update_of_ne (fun heq => ?_) ..
      have hfalse := hno m w' hne (heq ▸ hvar') hm
      rw [href'] at hfalse
      cases hfalse

/-- The state of the name is written: by the statement, if the name has no variable, or when the
    value is copied back. -/
theorem store_own (hi : SsaInv N h latest) {w : DataStateVal} (hw : RegState E w)
    {o : Option DataStateVal} (ho : GivenAs w o) :
    SsaInv N (Function.update h (N.own n) w) (Function.update latest n o) := by
  have hvars : ∀ m v, N.var m = some v → Function.update h (N.own n) w v = h v := fun m v hvar =>
    Function.update_of_ne (N.own_ne_var n m v hvar).symm ..
  have hown : ∀ m, m ≠ n → Function.update h (N.own n) w (N.own m) = h (N.own m) := fun m hne =>
    Function.update_of_ne (fun heq => hne (N.own_inj m n heq)) ..
  refine ⟨fun m v hvar => ?_, fun m => ?_, fun m w' => latest_update hi (fun w' hw' => ?_) ?_ m⟩
  · rw [hvars m v hvar]
    exact hi.vars m v hvar
  · by_cases heq : m = n
    · refine heq ▸ Or.inl ?_
      rw [Function.update_self]
      exact ⟨hw.1, fun hunset _ => hw.2 hunset⟩
    · unfold OwnState
      rw [hown m heq]
      exact hi.owns m
  · have hat : (Function.update h (N.own n) w (N.own n)).isScalar = true := by
      rw [Function.update_self]
      exact hw.1
    rw [target_scalar hat, Function.update_self]
    exact ho w' hw'
  · intro m hne _
    rw [target_congr (hown m hne)]
    obtain ⟨hscalar, -⟩ | ⟨v, raw, off, b, hvar, href⟩ := hi.owns m
    · rw [target_scalar hscalar, hown m hne]
    · rw [target_ref href, hvars m v hvar]

/-- A name that refers to its variable takes over its value. -/
theorem copyBack_inv (hi : SsaInv N h latest) {v raw : Nat} {off : Int} {b : Nat}
    (hvar : N.var n = some v)
    (href : h (N.own n) = .sec2 raw .ref ⟨some v, off, b⟩)
    {copy : DsHeap → DsvLoc → DsvLoc → Option (DsHeap × Bool)}
    (hcopy : copy = dsvCopyData ∨ copy = dsvCopyDataForce)
    (hx : copyBack N copy h n (dsVal v) = some h') : SsaInv N h' latest := by
  have hne : N.own n ≠ v := N.own_ne_var n n v hvar
  have hscalar : (h v).isScalar = true := (hi.vars n v hvar).1
  have hrun : copy h (dsVal (N.own n)) (dsVal v) =
      some (Function.update h (N.own n) (h v), false) := by
    obtain rfl | rfl := hcopy
    · exact copy_scalar hne (fun r s n' e heq => by rw [href] at heq; cases heq) hscalar
    · exact copyForce_scalar hne hscalar
  unfold copyBack at hx
  rw [if_neg fun heq => hne (congrArg DsvLoc.ds heq).symm, hrun] at hx
  cases hx
  have hgiven : GivenAs (h v) (latest n) := fun w' hw' => by
    obtain ⟨hset, hsame⟩ := hi.latest n w' hw'
    rw [target_ref href] at hsame
    exact ⟨hset, hsame⟩
  have hback := store_own (n := n) hi (hi.vars n v hvar) hgiven
  rwa [Function.update_eq_self] at hback

/-! ## The statements -/

/-- The place that the left side of a definition stands for. -/
theorem getElem?_single {t dst : DsvLoc} {i : Nat} (h : [t][i]? = some dst) : dst = t := by
  cases i with
  | zero => exact (Option.some.inj h).symm
  | succ i => cases h

/-- No other version of the variable that was given a value still refers to its data state. -/
def NoneGivenRefers (N : SsaNames E) (h : DsHeap) (latest : Nat → Option DataStateVal)
    (n : Nat) : Prop :=
  ∀ v, N.var n = some v → ∀ m u, m ≠ n → N.var m = some v → latest m = some u →
    (h (N.own m)).isRef = false

theorem NoneRefers.given (hno : NoneRefers N h n) (latest : Nat → Option DataStateVal) :
    NoneGivenRefers N h latest n := fun v hvar m _ hne hvar' _ => hno v hvar m hne hvar'

theorem ssaAssign_inv (hi : SsaInv N h latest) (hdef : N.defaultDef n = false)
    (hno : NoneGivenRefers N h latest n) {w : DataStateVal} (hw : w.isRef = false)
    (hreg : w.isUnset = true → E.Register w.raw)
    {back : Option (DsHeap → DsvLoc → DsvLoc → Option (DsHeap × Bool))}
    (hback : ∀ copy, back = some copy → copy = dsvCopyData ∨ copy = dsvCopyDataForce) {i : Nat}
    (hx : ssaAssign N fuel back rand h n i w = some h') :
    SsaInv N h' (Function.update latest n (given w)) := by
  unfold ssaAssign at hx
  cases hvar : N.var n with
  | none =>
    simp only [ssaDest, hvar, Option.bind_eq_bind, Option.bind_some] at hx
    split at hx
    · rename_i h₂ locs hread
      obtain ⟨rfl, hi₂, hs₂, hscalar, -⟩ := read_inv hi (ready_of_owns hi hdef) hread
      have htarget : target h (N.own n) = N.own n := by
        obtain ⟨hsc, -⟩ | ⟨v, raw, off, b, hvar', -⟩ := hi.owns n
        · exact target_scalar hsc
        · rw [hvar] at hvar'
          cases hvar'
      rw [htarget] at hx hscalar
      obtain ⟨dst, hdst, hx⟩ := Option.bind_eq_some_iff.mp hx
      obtain rfl := getElem?_single hdst
      rw [get?_dsVal h₂ rfl, Option.bind_some] at hx
      split at hx
      · cases hx
      · rename_i hcopy
        simp only [ssaBack, hvar, Option.some.injEq] at hx
        subst hx
        rw [set_dsVal h₂ rfl]
        refine store_own hi₂ ⟨?_, hreg⟩ (givenAs_given w)
        exact DataStateVal.isScalar_of_copyable hscalar (not_not.mp (not_or.mp hcopy).1) hw
    · cases hx
  | some v =>
    obtain ⟨h₁, raw, hx₁, href, hi₁, howns, -⟩ := write_inv hi hvar
    simp only [ssaDest, hvar, hx₁, Option.bind_eq_bind, Option.bind_some] at hx
    split at hx
    · rename_i h₂ locs hread
      have hready : Ready E (h₁ (N.own n)) := fun hunset => (by rw [href] at hunset; cases hunset)
      obtain ⟨rfl, hi₂, hs₂, hscalar, -⟩ := read_inv hi₁ hready hread
      rw [target_ref href] at hx hscalar
      have href₂ : h₂ (N.own n) = .sec2 raw .ref ⟨some v, 0, N.bits v⟩ := by
        obtain heq | ⟨hunset, -⟩ := hs₂.owns n
        · exact heq.trans href
        · rw [href] at hunset
          cases hunset
      have hno₂ : ∀ m u, m ≠ n → N.var m = some v → Function.update latest n none m = some u →
          (h₂ (N.own m)).isRef = false := by
        intro m u hne hvar' hm
        rw [Function.update_of_ne hne] at hm
        rw [hs₂.isRef m, howns m hne]
        exact hno v hvar m u hne hvar' hm
      obtain ⟨dst, hdst, hx⟩ := Option.bind_eq_some_iff.mp hx
      obtain rfl := getElem?_single hdst
      rw [get?_dsVal h₂ rfl, Option.bind_some] at hx
      split at hx
      · cases hx
      · rename_i hcopy
        have hws : w.isScalar = true :=
          DataStateVal.isScalar_of_copyable hscalar (not_not.mp (not_or.mp hcopy).1) hw
        have hi₃ := store_var hi₂ hvar href₂ hno₂ ⟨hws, hreg⟩ (givenAs_given w)
        rw [Function.update_idem] at hi₃
        rw [set_dsVal h₂ rfl] at hx
        simp only [ssaBack, hvar] at hx
        cases back with
        | none =>
          cases hx
          exact hi₃
        | some copy =>
          have href₃ : Function.update h₂ v w (N.own n) =
              .sec2 raw .ref ⟨some v, 0, N.bits v⟩ :=
            (Function.update_of_ne (N.own_ne_var n n v hvar) ..).trans href₂
          exact copyBack_inv hi₃ hvar href₃ (hback copy rfl) hx
    · cases hx

/-- A register is copied to another one, or to itself. -/
theorem copy_reg {x y : Nat} (hx : (h x).isScalar = true) (hy : (h y).isScalar = true) :
    dsvCopyData h (dsVal x) (dsVal y) = some (Function.update h x (h y), false) := by
  by_cases heq : x = y
  · subst heq
    unfold dsvCopyData
    rw [get?_dsVal h rfl, Function.update_eq_self]
    simp only [if_true]
  · exact copy_scalar heq (fun r s n e hv => by rw [hv] at hx; cases hx) hy

theorem Filled.ready (hs : Filled N h h') (hready : Ready E (h (N.own n))) :
    Ready E (h' (N.own n)) := by
  intro hunset
  obtain heq | ⟨-, -, hset⟩ := hs.owns n
  · rw [heq] at hunset ⊢
    exact hready hunset
  · exact absurd hunset (by simp [hset])

/-! ### The address of an array -/

/-- What a phi takes from the data state `x` with the value `w`. -/
def SsaNames.taken (N : SsaNames E) (x : Nat) (w : DataStateVal) : DataStateVal :=
  match N.elemBits x with
  | none => w
  | some bits => w.withBits bits

theorem taken_none {x : Nat} (hx : N.elemBits x = none) (w : DataStateVal) : N.taken x w = w := by
  unfold SsaNames.taken
  rw [hx]

theorem taken_some {x bits : Nat} (hx : N.elemBits x = some bits) (w : DataStateVal) :
    N.taken x w = w.withBits bits := by
  unfold SsaNames.taken
  rw [hx]

theorem DataStateVal.isScalar_withBits (bits : Nat) (v : DataStateVal) :
    (v.withBits bits).isScalar = v.isScalar := by
  unfold withBits
  split <;> rfl

theorem DataStateVal.isUnset_withBits (bits : Nat) (v : DataStateVal) :
    (v.withBits bits).isUnset = v.isUnset := by
  unfold withBits
  split <;> rfl

@[simp]
theorem isScalar_taken (x : Nat) (w : DataStateVal) : (N.taken x w).isScalar = w.isScalar := by
  unfold SsaNames.taken
  split
  · rfl
  · exact w.isScalar_withBits _

@[simp]
theorem isUnset_taken (x : Nat) (w : DataStateVal) : (N.taken x w).isUnset = w.isUnset := by
  unfold SsaNames.taken
  split
  · rfl
  · exact w.isUnset_withBits _

/-- A name that is the address of an array has no variable: it is read from its own state. -/
theorem target_elem (hi : SsaInv N h latest) {m : Nat} (hm : (N.elemBits (N.own m)).isSome) :
    target h (N.own m) = N.own m := by
  obtain ⟨hscalar, -⟩ | ⟨v, raw, off, b, hvar, -⟩ := hi.owns m
  · exact target_scalar hscalar
  · rw [N.elem_own m hm] at hvar
    cases hvar

/-- **The value of the argument becomes what the phi takes.** -/
theorem arrayToPointer_eq {x m : Nat} (hx : decGassignArrayToPointer N h m (dsVal x) = some h') :
    h' = Function.update h x (N.taken (N.own m) (h x)) := by
  unfold decGassignArrayToPointer at hx
  split at hx
  · rename_i hnone
    cases hx
    rw [taken_none hnone]
    exact (Function.update_eq_self x h).symm
  · rename_i bits hbits
    rw [taken_some hbits]
    split at hx
    · rename_i raw ds offset b hval
      split at hx
      · cases hx
        have hsome : h x = .sec2 raw .addr ⟨some ds, offset, b⟩ :=
          Option.some.inj ((get?_dsVal h rfl).symm.trans hval)
        rw [set_dsVal h rfl, hsome]
        rfl
      · cases hx
    · cases hx

/-- The invariant holds with the value that the argument was given. -/
theorem arrayToPointer_inv {m : Nat} (hi : SsaInv N h latest)
    (hscalar : (h (target h (N.own m))).isScalar = true)
    (hset : (h (target h (N.own m))).isUnset = false)
    (hx : decGassignArrayToPointer N h m (dsVal (target h (N.own m))) = some h') :
    target h' (N.own m) = target h (N.own m) ∧
      SsaInv N h' (N.latestOf latest m (h' (target h (N.own m)))) := by
  obtain rfl := arrayToPointer_eq hx
  rw [Function.update_self]
  unfold SsaNames.latestOf
  by_cases hm : (N.elemBits (N.own m)).isSome
  · rw [if_pos hm]
    rw [target_elem hi hm] at hscalar hset ⊢
    refine ⟨?_, store_own hi (regState_set (by simpa using hscalar) (by simpa using hset)) ?_⟩
    · refine target_scalar ?_
      rw [Function.update_self, isScalar_taken]
      exact hscalar
    · rintro w ⟨rfl⟩
      exact ⟨by simpa using hset, .refl _⟩
  · rw [if_neg hm, taken_none (Option.not_isSome_iff_eq_none.mp hm), Function.update_eq_self]
    exact ⟨rfl, hi⟩

/-- Other data states are left alone. -/
theorem arrayToPointer_other {m k : Nat} (hi : SsaInv N h latest)
    (hx : decGassignArrayToPointer N h m (dsVal (target h (N.own m))) = some h')
    (hk : N.elemBits k = none) : h' k = h k := by
  obtain rfl := arrayToPointer_eq hx
  by_cases hm : (N.elemBits (N.own m)).isSome
  · rw [target_elem hi hm]
    refine Function.update_of_ne ?_ ..
    rintro rfl
    rw [hk] at hm
    cases hm
  · rw [taken_none (Option.not_isSome_iff_eq_none.mp hm), Function.update_eq_self]

/-- **Both sides of a phi are read**, and the value of the argument goes over the result. -/
theorem phi_reads {m x : Nat} (hi : SsaInv N h latest) {rand rand' : List Nat → Nat}
    {h₁ h₂ h₃ h₃' h₄ : DsHeap} {dsts srcs : List DsvLoc} {s : DataStateVal}
    (hop : ssaOperand N fuel rand' h m = some h₁) (hn : Ready E (h₁ (N.own n)))
    (htarget : target h₁ (N.own n) = x) (hx : N.elemBits x = none)
    (hread : getDsVal E rand fuel h₁ (dsVal (N.own n)) 0 0 = some (h₂, some dsts))
    (hread' : getDsVal E rand' fuel h₂ (dsVal (N.own m)) 0 0 = some (h₃, some srcs))
    {i j : Nat} {dst src : DsvLoc} (hdst : dsts[i]? = some dst) (hsrc : srcs[j]? = some src)
    (harray : decGassignArrayToPointer N h₃ m src = some h₃') (hs : h₃'.get? src = some s)
    (hcopy : dsvCopyData h₃' dst src = some (h₄, false)) :
    dst = dsVal x ∧ s = h₃' (target h₃' (N.own m)) ∧ h₄ = Function.update h₃' x s ∧
      s.isScalar = true ∧ s.isUnset = false ∧ SsaInv N h₃ latest ∧ Filled N h h₃ ∧
      decGassignArrayToPointer N h₃ m (dsVal (target h₃ (N.own m))) = some h₃' ∧
      target h₃' (N.own m) = target h₃ (N.own m) ∧ SsaInv N h₃' (N.latestOf latest m s) := by
  obtain ⟨hi₁, hs₁, hm⟩ := operand_inv hi hop
  obtain ⟨rfl, hi₂, hs₂, hscalar, hset⟩ := read_inv hi₁ hn hread
  obtain ⟨rfl, hi₃, hs₃, hscalar', hset'⟩ := read_inv hi₂ (hs₂.ready hm) hread'
  rw [htarget] at hdst hscalar hset
  obtain rfl := getElem?_single hdst
  obtain rfl := getElem?_single hsrc
  rw [← hs₃.target (hi₂.owns m)] at hcopy hscalar' hset' harray hs
  have hx₃ : (h₃ x).isScalar = true := by
    obtain ⟨hsc, -⟩ | ⟨v, raw, off, b, hvar, href⟩ := hi₁.owns n
    · rw [target_scalar hsc] at htarget
      obtain ⟨hsc', -⟩ | ⟨v', raw', off', b', -, href'⟩ := hi₃.owns n
      · exact htarget ▸ hsc'
      · have hfalse := (hs₂.trans hs₃).isRef n
        rw [href', DataStateVal.isScalar_isRef hsc] at hfalse
        cases hfalse
    · rw [target_ref href] at htarget
      exact htarget ▸ (hi₃.vars n v hvar).1
  obtain ⟨hsame, hi₃'⟩ := arrayToPointer_inv hi₃ hscalar' hset' harray
  have hval : s = h₃' (target h₃ (N.own m)) :=
    (Option.some.inj ((get?_dsVal h₃' rfl).symm.trans hs)).symm
  have hat := congrFun (arrayToPointer_eq harray) (target h₃ (N.own m))
  rw [Function.update_self, ← hval] at hat
  have hscalar₃ : s.isScalar = true := by rw [hat, isScalar_taken, hscalar']
  refine ⟨rfl, by rw [hsame, hval], ?_, hscalar₃, by rw [hat, isUnset_taken, hset'], hi₃,
    (hs₁.trans hs₂).trans hs₃, harray, hsame, hval ▸ hi₃'⟩
  rw [copy_reg (by rw [arrayToPointer_other hi₃ harray hx]; exact hx₃)
    (by rw [← hval]; exact hscalar₃), ← hval] at hcopy
  cases hcopy
  rfl

/-- What a phi that is decoded went through. -/
theorem ssaPhi_cases {m : Nat} {rand rand' : List Nat → Nat} {i j : Nat} {read : DataStateVal}
    (hx : ssaPhi N fuel rand rand' h n m i j = some (h', read)) :
    ∃ h₀ h₁ h₂ h₃ h₃' h₄ dsts srcs dst src,
      ssaDest N h n = some h₀ ∧ ssaOperand N fuel rand' h₀ m = some h₁ ∧
      getDsVal E rand fuel h₁ (dsVal (N.own n)) 0 0 = some (h₂, some dsts) ∧
      getDsVal E rand' fuel h₂ (dsVal (N.own m)) 0 0 = some (h₃, some srcs) ∧
      dsts[i]? = some dst ∧ srcs[j]? = some src ∧
      decGassignArrayToPointer N h₃ m src = some h₃' ∧ h₃'.get? src = some read ∧
      dsvCopyData h₃' dst src = some (h₄, false) ∧
      ssaBack N (some dsvCopyDataForce) h₄ n dst = some h' := by
  unfold ssaPhi at hx
  obtain ⟨h₀, hx₀, hx⟩ := Option.bind_eq_some_iff.mp hx
  obtain ⟨h₁, hop, hx⟩ := Option.bind_eq_some_iff.mp hx
  split at hx
  · rename_i h₂ dsts hread
    split at hx
    · rename_i h₃ srcs hread'
      obtain ⟨dst, hdst, hx⟩ := Option.bind_eq_some_iff.mp hx
      obtain ⟨src, hsrc, hx⟩ := Option.bind_eq_some_iff.mp hx
      obtain ⟨d, -, hx⟩ := Option.bind_eq_some_iff.mp hx
      obtain ⟨s₀, -, hx⟩ := Option.bind_eq_some_iff.mp hx
      split at hx
      · cases hx
      · obtain ⟨h₃', harray, hx⟩ := Option.bind_eq_some_iff.mp hx
        obtain ⟨s, hs, hx⟩ := Option.bind_eq_some_iff.mp hx
        split at hx
        · rename_i h₄ hcopy
          obtain ⟨h₅, hback, heq⟩ := Option.map_eq_some_iff.mp hx
          cases heq
          exact ⟨h₀, h₁, h₂, h₃, h₃', h₄, dsts, srcs, dst, src, hx₀, hop, hread, hread', hdst, hsrc,
            harray, hs, hcopy, hback⟩
        · cases hx
    · cases hx
  · cases hx

/-- The value of the argument of a phi is the one that was given last. -/
theorem givenAs_phi {m : Nat} {s : DataStateVal} (hset : s.isUnset = false)
    (hlatest : ∀ w, latest m = some w → w.isUnset = false ∧ s.Same w) :
    GivenAs s ((latest m).or (some s)) := by
  intro w' hw'
  cases hw : latest m with
  | none =>
    rw [hw] at hw'
    cases hw'
    exact ⟨hset, .refl _⟩
  | some w =>
    rw [hw] at hw'
    cases hw'
    exact hlatest _ hw

/-- The name that is defined is no address of an array, so that it may lose its value first. -/
theorem latestOf_update {m : Nat} (helem : N.elemBits (N.own n) = none)
    (latest : Nat → Option DataStateVal) (w : DataStateVal) (o o' : Option DataStateVal) :
    Function.update (N.latestOf (Function.update latest n o) m w) n o' =
      Function.update (N.latestOf latest m w) n o' := by
  unfold SsaNames.latestOf
  split
  · rename_i hm
    have hmn : m ≠ n := by
      rintro rfl
      rw [helem] at hm
      cases hm
    rw [Function.update_comm hmn, Function.update_idem, ← Function.update_comm hmn]
  · rw [Function.update_idem]

/-- What the argument of a phi had last is what is read, also where the result is its argument. -/
theorem phi_latest {m : Nat} {h₃ : DsHeap} {s : DataStateVal} (helem : N.elemBits (N.own n) = none)
    (hi : SsaInv N h₃ (N.latestOf (Function.update latest n none) m s))
    (hs : s = h₃ (target h₃ (N.own m)))
    (hself : m = n → ∀ w, latest n = some w → w.isUnset = false ∧ s.Same w) :
    ∀ w, N.latestOf latest m s m = some w → w.isUnset = false ∧ s.Same w := by
  intro w hw
  by_cases hmn : m = n
  · subst hmn
    unfold SsaNames.latestOf at hw
    rw [helem] at hw
    exact hself rfl w hw
  · rw [hs]
    rw [hs] at hi hw
    refine hi.latest m w ?_
    unfold SsaNames.latestOf at hw ⊢
    split at hw
    · rwa [if_pos ‹_›, Function.update_self] at *
    · rwa [if_neg ‹_›, Function.update_of_ne hmn]

section Phi

variable {m : Nat} {rand rand' : List Nat → Nat} {i j : Nat} {read : DataStateVal}

/-- A phi whose result has no variable. -/
theorem ssaPhi_own (hi : SsaInv N h latest) (hdef : N.defaultDef n = false)
    (helem : N.elemBits (N.own n) = none) (hvar : N.var n = none)
    (hx : ssaPhi N fuel rand rand' h n m i j = some (h', read)) :
    SsaInv N h' (Function.update (N.latestOf latest m read) n
      ((N.latestOf latest m read m).or (some read))) := by
  obtain ⟨h₀, h₁, h₂, h₃, h₃', h₄, dsts, srcs, dst, src, hx₀, hop, hread, hread', hdst, hsrc,
    harray, hs, hcopy, hback⟩ := ssaPhi_cases hx
  simp only [ssaDest, hvar, Option.some.injEq] at hx₀
  subst hx₀
  have hi₁ := (operand_inv hi hop).1
  have htarget : target h₁ (N.own n) = N.own n := by
    obtain ⟨hsc, -⟩ | ⟨v, raw, off, b, hvar', -⟩ := hi₁.owns n
    · exact target_scalar hsc
    · rw [hvar] at hvar'
      cases hvar'
  obtain ⟨-, heq, rfl, hscalar, hset, -, -, -, -, hi₃⟩ :=
    phi_reads hi hop (ready_of_owns hi₁ hdef) htarget helem hread hread' hdst hsrc harray hs hcopy
  simp only [ssaBack, hvar, Option.some.injEq] at hback
  subst hback
  refine store_own hi₃ (regState_set hscalar hset) (givenAs_phi hset fun w hw => ?_)
  rw [heq]
  exact heq ▸ hi₃.latest m w hw

/-- A phi whose result is a version of the variable `v`: it is written through the variable, and
    copied back. -/
theorem ssaPhi_var {v : Nat} (hi : SsaInv N h latest) (helem : N.elemBits (N.own n) = none)
    (hno : NoneRefers N h n) (hvar : N.var n = some v)
    (hself : m = n → (h v).Same (h (target h (N.own n))))
    (hx : ssaPhi N fuel rand rand' h n m i j = some (h', read)) :
    SsaInv N h' (Function.update (N.latestOf latest m read) n
      ((N.latestOf latest m read m).or (some read))) := by
  obtain ⟨h₀, h₁, h₂, h₃, h₃', h₄, dsts, srcs, dst, src, hx₀, hop, hread, hread', hdst, hsrc,
    harray, hs, hcopy, hback⟩ := ssaPhi_cases hx
  obtain ⟨h₀', raw, hx₀', href, hi₀, howns, hvars⟩ := write_inv hi hvar
  simp only [ssaDest, hvar, hx₀', Option.some.injEq] at hx₀
  subst hx₀
  have hkeep : ∀ {h'' : DsHeap}, Filled N h₀' h'' →
      h'' (N.own n) = .sec2 raw .ref ⟨some v, 0, N.bits v⟩ := by
    intro h'' hs
    obtain heq | ⟨hunset, -⟩ := hs.owns n
    · exact heq.trans href
    · rw [href] at hunset
      cases hunset
  obtain ⟨hi₁, hs₁, -⟩ := operand_inv hi₀ hop
  have hready : Ready E (h₁ (N.own n)) := fun hunset => by
    rw [hkeep hs₁] at hunset
    cases hunset
  obtain ⟨rfl, heq, rfl, hscalar, hset, hi₃, hs₃, harray', -, hi₃'⟩ := phi_reads hi₀ hop hready
    (target_ref (hkeep hs₁)) (N.elem_var n v hvar) hread hread' hdst hsrc harray hs hcopy
  have hsame : ∀ {k}, N.elemBits k = none → h₃' k = h₃ k := arrayToPointer_other hi₃ harray'
  have hkeep₃ : h₃' (N.own n) = .sec2 raw .ref ⟨some v, 0, N.bits v⟩ :=
    (hsame helem).trans (hkeep hs₃)
  have hno₃ : ∀ m' u, m' ≠ n → N.var m' = some v →
      N.latestOf (Function.update latest n none) m read m' = some u →
        (h₃' (N.own m')).isRef = false := by
    intro m' u hne hvar' _
    have helem' : N.elemBits (N.own m') = none := by
      refine Option.not_isSome_iff_eq_none.mp fun hsome => ?_
      rw [N.elem_own m' hsome] at hvar'
      cases hvar'
    rw [hsame helem', hs₃.isRef m', howns m' hne]
    exact hno v hvar m' hne hvar'
  -- a result that is its own argument is read from the variable
  have hlatest := phi_latest helem hi₃' heq fun hmn w hw => by
    subst hmn
    obtain ⟨hwset, hlast⟩ := hi.latest m w hw
    have hv₀ : (h₀' v).Same w := (hvars m v hvar).trans ((hself rfl).trans hlast)
    rw [heq, target_ref hkeep₃, hsame (N.elem_var m v hvar)]
    exact ⟨hwset, (hs₃.vars m v hvar (hv₀.isUnset.trans hwset)).trans hv₀⟩
  have hi₄ := store_var hi₃' hvar hkeep₃ hno₃ (regState_set hscalar hset) (givenAs_phi hset hlatest)
  rw [latestOf_update helem] at hi₄
  simp only [ssaBack, hvar] at hback
  have href₄ : Function.update h₃' v read (N.own n) = .sec2 raw .ref ⟨some v, 0, N.bits v⟩ :=
    (Function.update_of_ne (N.own_ne_var n n v hvar) ..).trans hkeep₃
  exact copyBack_inv hi₄ hvar href₄ (Or.inr rfl) hback

theorem ssaPhi_inv (hi : SsaInv N h latest) (hdef : N.defaultDef n = false)
    (helem : N.elemBits (N.own n) = none) (hno : NoneRefers N h n)
    (hself : m = n → ∀ v, N.var n = some v → (h v).Same (h (target h (N.own n))))
    (hx : ssaPhi N fuel rand rand' h n m i j = some (h', read)) :
    SsaInv N h' (Function.update (N.latestOf latest m read) n
      ((N.latestOf latest m read m).or (some read))) := by
  cases hvar : N.var n with
  | none => exact ssaPhi_own hi hdef helem hvar hx
  | some v => exact ssaPhi_var hi helem hno hvar (fun hmn => hself hmn v hvar) hx

end Phi

/-! ## Runs -/

/-- The start of a frame: no name has a value, and the variables are registers. -/
structure SsaStart (N : SsaNames E) where
  heap : DsHeap
  vars : ∀ n v, N.var n = some v → RegState E (heap v)
  owns : ∀ n, ∃ raw, heap (N.own n) = .unk raw ∧ (N.defaultDef n = false → E.Register raw)

/-- No definition was executed yet. -/
def SsaStart.state (start : SsaStart N) : SsaState := ⟨start.heap, fun _ => none⟩

theorem ssaInv_start (start : SsaStart N) : SsaInv N start.heap fun _ => none := by
  refine ⟨start.vars, fun n => ?_, fun n w hw => (by cases hw)⟩
  obtain ⟨raw, hunk, hraw⟩ := start.owns n
  unfold OwnState
  rw [hunk]
  exact Or.inl ⟨rfl, fun _ => hraw⟩

/-- A name that was given a value can be looked up. -/
theorem operand_some (hi : SsaInv N h latest) {w : DataStateVal} (hw : latest n = some w)
    (fuel : Nat) (rand : List Nat → Nat) :
    ∃ h₁, ssaOperand N fuel rand h n = some h₁ ∧ SsaInv N h₁ latest := by
  unfold ssaOperand
  cases hvar : N.var n with
  | none => exact ⟨h, rfl, hi⟩
  | some v =>
    obtain ⟨h₁, hx₁, hi₁, -, howns, -⟩ := getDsVar_inv hi hvar
    refine ⟨h₁, ?_, hi₁⟩
    simp only [hx₁, Option.bind_eq_bind, Option.bind_some]
    split
    · rename_i raw hdef hunk
      obtain ⟨hset, hsame⟩ := hi₁.latest n w hw
      rw [target_scalar (by rw [hunk]; rfl), hunk] at hsame
      have hunset : w.isUnset = true := hsame.isUnset.symm
      exact absurd hunset (by simp [hset])
    · rfl

/-- **The invariant isolates the names.** -/
theorem SsaInv.isolated (hi : SsaInv N h latest) : Isolated N ⟨h, latest⟩ := by
  intro n w hw rand
  obtain ⟨h₁, hop, hi₁⟩ := operand_some hi hw 2 rand
  obtain ⟨hset, hsame⟩ := hi₁.latest n w hw
  refine ⟨2, h₁, h₁, dsVal (target h₁ (N.own n)), h₁ (target h₁ (N.own n)), hop, ?_,
    get?_dsVal h₁ rfl, hsame⟩
  obtain ⟨hscalar, -⟩ | ⟨v, raw, off, b, hvar, href⟩ := hi₁.owns n
  · rw [target_scalar hscalar] at hsame ⊢
    exact getDsVal_set hscalar (hsame.isUnset.trans hset) rand 0 0 1
  · rw [target_ref href] at hsame ⊢
    rw [getDsVal_ref href]
    exact getDsVal_set (hi₁.vars n v hvar).1 (hsame.isUnset.trans hset) rand off b 0

theorem store_inv (hi : SsaInv N h latest) {t : DsvLoc} (ht : N.memory t.ds = true)
    (w : DataStateVal) : SsaInv N (h.set t w) latest := by
  obtain ⟨-, hapart⟩ := N.memory_apart t.ds ht
  have howns : ∀ n, h.set t w (N.own n) = h (N.own n) := fun n =>
    Function.update_of_ne (hapart n).1 ..
  have hvars : ∀ n v, N.var n = some v → h.set t w v = h v := fun n v hvar =>
    Function.update_of_ne (fun heq => (hapart n).2 (hvar.trans (congrArg some heq))) ..
  refine hi.settle ⟨fun n => Or.inl (howns n), fun n v hvar _ => ?_⟩ fun n v hvar => ?_
  · rw [hvars n v hvar]
    exact .refl _
  · rw [hvars n v hvar]
    exact hi.vars n v hvar

theorem ssaInv_step {s s' : SsaState} {e : SsaEvent E} (hi : SsaInv N s.heap s.latest)
    (hg : StepIsolates N s e) (hx : ssaStep N fuel s e = some s') :
    SsaInv N s'.heap s'.latest := by
  cases e with
  | assign n code w i rand =>
    rw [ssaStep] at hx
    split at hx
    · cases hx
    · rename_i hno
      obtain ⟨hdef, hset⟩ := not_or.mp hno
      obtain ⟨h', hr, rfl⟩ := Option.map_eq_some_iff.mp hx
      have hgiven : given w = some w := if_neg hset
      rw [← hgiven]
      refine ssaAssign_inv hi (by simpa using hdef) (hg.1.given s.latest) hg.2
        (fun hu => absurd hu hset) ?_ hr
      intro copy hcopy
      split at hcopy
      · cases hcopy
        exact Or.inr rfl
      · cases hcopy
  | callRet n w i rand =>
    rw [ssaStep] at hx
    split at hx
    · cases hx
    · rename_i hdef
      obtain ⟨h', hr, rfl⟩ := Option.map_eq_some_iff.mp hx
      refine ssaAssign_inv hi (by simpa using hdef) (hg.1.given s.latest) hg.2 w.2
        (fun copy hcopy => ?_) hr
      cases hcopy
      exact Or.inl rfl
  | phi n m i j rand rand' =>
    rw [ssaStep] at hx
    split at hx
    · cases hx
    · rename_i hdef
      obtain ⟨⟨h', read⟩, hr, rfl⟩ := Option.map_eq_some_iff.mp hx
      obtain ⟨hdef, helem⟩ := not_or.mp hdef
      exact ssaPhi_inv hi (by simpa using hdef) (Option.not_isSome_iff_eq_none.mp helem) hg.1 hg.2
        hr
  | operand n rand =>
    obtain ⟨h₁, hop, hx⟩ := Option.bind_eq_some_iff.mp hx
    obtain ⟨hi₁, -, hready⟩ := operand_inv hi hop
    split at hx
    · rename_i h₂ locs hread
      cases hx
      exact (read_inv hi₁ hready hread).2.1
    · cases hx
  | store t w =>
    rw [ssaStep] at hx
    split at hx
    · rename_i ht
      cases hx
      exact store_inv hi ht w
    · cases hx

/-- **Each SSA name is read as the value that its latest definition gave it, in every state of every
    run whose steps isolate the names.** -/
theorem reads_latest (N : SsaNames E) (fuel : Nat) (start : SsaStart N) (es : List (SsaEvent E))
    (hg : Along (ssaStep N fuel) (StepIsolates N) start.state es) :
    Visits (ssaStep N fuel) (Isolated N) start.state es := by
  have hinv : Visits (ssaStep N fuel) (fun s => SsaInv N s.heap s.latest) start.state es :=
    visits_of_along (fun _ _ _ hi hg hx => ssaInv_step hi hg hx) (ssaInv_start start) hg
  exact hinv.mono fun _ hi => hi.isolated

/-! ## Versions of one pointer -/

/-- All nodes are pointers. -/
def pointerEnv : DataEnv := plainEnv (.pointer ⟨8, by decide⟩)

theorem register_pointer (raw : Nat) : pointerEnv.Register raw := ⟨rfl, fun _ _ _ _ => rfl⟩

/-- The versions of one pointer: the variable is data state 0, version `n` is `n + 2`. -/
def versions : SsaNames pointerEnv where
  own n := n + 2
  var _ := some 0
  tmp := 1
  node _ := 0
  initNode _ := none
  bits _ := 64
  defaultDef _ := false
  memory _ := false
  elemBits _ := none
  own_inj _ _ h := Nat.add_right_cancel h
  own_ne_var n _ _ h := by
    cases h
    exact Nat.succ_ne_zero (n + 1)
  own_ne_tmp n h := Nat.succ_ne_zero n (Nat.succ.inj h)
  var_ne_tmp _ _ h := by
    cases h
    exact Nat.zero_ne_one
  init_register _ _ h := by cases h
  default_var _ h := by cases h
  memory_apart _ h := by cases h
  elem_own _ h := by cases h
  elem_var _ _ _ := rfl

/-- Nothing is known of the versions. -/
def versionsStart : SsaStart versions where
  heap _ := .unk 0
  vars _ _ _ := ⟨rfl, fun _ => register_pointer 0⟩
  owns _ := ⟨0, rfl, fun _ => register_pointer 0⟩

/-- Two null pointers are assigned to two versions. -/
theorem reads_latest_null : Visits (ssaStep versions 3) (Isolated versions) versionsStart.state
    [.assign 0 .integerCst (.sec1 0 .intCst [0]) 0 fun _ => 0,
     .assign 1 .integerCst (.sec1 0 .intCst [1]) 0 fun _ => 0] := by
  refine reads_latest versions 3 versionsStart _ ⟨⟨?_, rfl⟩, fun s' hs => ⟨⟨?_, rfl⟩, ?_⟩⟩
  · exact fun _ _ _ _ _ => rfl
  · cases hs
    intro v _ m hne _
    match m with
    | 0 => rfl
    | 1 => exact absurd rfl hne
    | _ + 2 => rfl
  · exact fun _ _ => trivial

/-- `p_1 = &a; p_2 = &b;`: the address that the first version was given is gone. -/
theorem address_overwritten : ¬ Visits (ssaStep versions 3) (Isolated versions) versionsStart.state
    [.assign 0 .addrExpr (.sec2 0 .addr ⟨some 100, 0, 32⟩) 0 fun _ => 0,
     .assign 1 .addrExpr (.sec2 0 .addr ⟨some 200, 0, 32⟩) 0 fun _ => 0] := by
  intro hv
  have hlast := visits_iff_exec.mp hv _ [] _ (List.append_nil _).symm rfl
  obtain ⟨fuel, h₁, h₂, t, u, hop, hread, hget, hsame⟩ := hlast 0 _ rfl fun _ => 0
  cases hop
  match fuel with
  | 0 => cases hread
  | 1 => cases hread
  | _ + 2 =>
    cases hread
    cases hget
    cases hsame

end Srcinv.Analysis
