import Srcinv.Analysis.DataInit
import Srcinv.Lib.Chain
import Srcinv.Lib.Run

/-!
# References between data states (`include/si_ds.h`, `get_ds_val`)

Following the references from one data state to the next must come to an end, and the value there
must be initialised or become so.

* `RefsRight` — no reference chain comes back to a data state, and `get_ds_val` comes back.
* `StepApart` — what the only guard of the code, the test against a reference to itself, leaves to
  the callers: a target must not lead back, and what stays without a content must have a type that
  gives it one.
* `refs_exact` — **the chains end over a run exactly when all its steps are of that kind.**
* `reference_returns` — two references that flattening turns into a cycle, and an empty record.
-/

namespace Srcinv.Analysis

open Srcinv.Lib

/-! ## Steps -/

/-- The operations that write values; `init` is the `dsv_init` of a value by its own node. -/
inductive DsEvent where
  | alloc (t : DsvLoc) (type : ValType)
  | setv (t : DsvLoc) (ds : Nat) (offset : Int) (bits : Nat)
  | holdSetv (t : DsvLoc) (ds : Option Nat) (offset : Int) (bits : Nat)
  | copy (dst src : DsvLoc)
  | copyForce (dst src : DsvLoc)
  | init (t : DsvLoc) (rand : List Nat → Nat)

variable (E : DataEnv)

def dsStep (h : DsHeap) : DsEvent → Option DsHeap
  | .alloc t type => dsvAllocData h t type
  | .setv t ds offset bits => (dsVrefSetv h t ds offset bits).map Prod.fst
  | .holdSetv t ds offset bits => (dsVrefHoldSetv h t ds offset bits).map Prod.fst
  | .copy dst src => (dsvCopyData h dst src).map Prod.fst
  | .copyForce dst src => (dsvCopyDataForce h dst src).map Prod.fst
  | .init t rand => (h.get? t).map fun v => (dsvInit E rand h t v).1

/-- The data states as `ds_rw_new` makes them: nothing is known but the node. -/
def freshHeap (raws : Nat → Nat) : DsHeap := fun ds => .unk (raws ds)

/-! ## What must hold -/

/-- The data state that the value of a data state refers to. -/
def refNext (h : DsHeap) (ds : Nat) : Option Nat := (h ds).refTarget

/-- **No chain of references comes back, and `get_ds_val` comes back for every data state.** -/
def RefsRight (h : DsHeap) : Prop :=
  (∀ ds, ¬ Revisits (refNext h) ds) ∧
    ∀ rand ds offset bits, Returns E rand h ds offset bits

/-- `dsv_init` gives a value of this node a content, or fails. -/
def DataEnv.Inits (raw : Nat) : Prop :=
  (E.node raw).ssaOutside = false ∧ (E.node raw).type.isEmpty = false

/-- The data state that `ds_vref_setv` points at. -/
def setvTarget (h : DsHeap) (ds : Nat) : Option Nat :=
  match h ds with
  | .sec2 _ .ref v2 => v2.ds
  | _ => some ds

/-- The type leaves a value without content. -/
def ValType.leavesUnset : ValType → Bool
  | .unk => true
  | .sec3 .. => true
  | _ => false

/-- A reference from `ds` to `target` closes no cycle: it is refused, or `target` does not lead
    back. -/
def LeadsAway (h : DsHeap) (ds : Nat) (target : Option Nat) : Prop :=
  ∀ c, target = some c → c = ds ∨ ¬ Leads (refNext h) c ds

/-- A value may be copied over the top of a data state: a content that it lacks it can be given,
    and what it refers to does not lead back. -/
def CopyApart (h : DsHeap) (dst src : DsvLoc) : Prop :=
  dst.path = [] → dst ≠ src → ¬ dst.Overlaps src → ∀ s, h.get? src = some s →
    (s.isUnset = true → E.Inits s.raw) ∧ LeadsAway h dst.ds s.refTarget

/-- **What the callers have to see to.** -/
def StepApart (h : DsHeap) : DsEvent → Prop
  | .alloc t type => t.path = [] → type.leavesUnset = true → E.Inits (h t.ds).raw
  | .setv t ds _ _ => t.path = [] → (h t.ds).isRef = true → LeadsAway h t.ds (setvTarget h ds)
  | .holdSetv t ds _ _ => t.path = [] → (h t.ds).isRef = true → LeadsAway h t.ds ds
  | .copy dst src =>
    (∀ s, h.get? src = some s → (h dst.ds).copyable s = true) → CopyApart E h dst src
  | .copyForce dst src =>
    (dst.path = [] → dst = src → E.Inits (h dst.ds).raw) ∧ CopyApart E h dst src
  | .init t _ => t.path = [] → (E.node (h t.ds).raw).ssaOutside = true ∨
      (E.node (h t.ds).raw).type.isEmpty = false

/-! ## What is written -/

/-- What a value at the top of a data state needs: a content or a node that gives it one, and no
    reference that leads back. -/
def TopRight (h : DsHeap) (ds : Nat) (w : DataStateVal) : Prop :=
  (w.isUnset = true → E.Inits w.raw) ∧ ∀ c, w.refTarget = some c → ¬ Leads (refNext h) c ds

/-- Below the top of a data state nothing changes for the chains. -/
theorem set_below (h : DsHeap) {t : DsvLoc} (ht : t.path ≠ []) (w : DataStateVal) (ds : Nat) :
    refNext (h.set t w) ds = refNext h ds ∧ (h.set t w ds).isUnset = (h ds).isUnset ∧
      (h.set t w ds).raw = (h ds).raw := by
  unfold refNext DsHeap.set
  by_cases hds : ds = t.ds
  · obtain ⟨i, path, hpath⟩ := List.exists_cons_of_ne_nil ht
    rw [hds, Function.update_self, hpath]
    exact DataStateVal.set_cons w i path (h t.ds)
  · rw [Function.update_of_ne hds]
    exact ⟨rfl, rfl, rfl⟩

theorem refNext_update (h : DsHeap) (ds : Nat) (w : DataStateVal) :
    refNext (Function.update h ds w) = Function.update (refNext h) ds w.refTarget := by
  funext b
  unfold refNext
  by_cases hb : b = ds
  · rw [hb, Function.update_self, Function.update_self]
  · rw [Function.update_of_ne hb, Function.update_of_ne hb]

/-! ## The invariant -/

variable {E}

/-- All chains end, and what has no content has a node that gives it one. -/
structure RefInv (E : DataEnv) (h : DsHeap) : Prop where
  ends : ∀ ds, Ends (refNext h) ds
  inits : ∀ ds, (h ds).isUnset = true → E.Inits (h ds).raw

variable {h : DsHeap}

theorem RefInv.set (hi : RefInv E h) {t : DsvLoc} {w : DataStateVal}
    (hw : t.path = [] → TopRight E h t.ds w) : RefInv E (h.set t w) := by
  by_cases ht : t.path = []
  · obtain ⟨hunset, hlead⟩ := hw ht
    rw [set_dsVal h ht]
    refine ⟨fun ds => ?_, fun ds hds => ?_⟩
    · rw [refNext_update]
      cases htarget : w.refTarget with
      | none =>
        refine ends_of_le (fun a => ?_) hi.ends ds
        by_cases ha : a = t.ds
        · exact Or.inl (ha ▸ Function.update_self ..)
        · exact Or.inr (Function.update_of_ne ha ..)
      | some c => exact ends_update hi.ends (hlead c htarget) ds
    · by_cases heq : ds = t.ds
      · rw [heq, Function.update_self] at hds ⊢
        exact hunset hds
      · rw [Function.update_of_ne heq] at hds ⊢
        exact hi.inits ds hds
  · have hsame := set_below h ht w
    refine ⟨fun ds => ends_of_le (fun a => Or.inr (hsame a).1) hi.ends ds, fun ds hds => ?_⟩
    rw [(hsame ds).2.1] at hds
    rw [(hsame ds).2.2]
    exact hi.inits ds hds

/-! ## Reading comes back -/

variable {rand : List Nat → Nat} {ds : Nat} {offset : Int} {bits : Nat}

/-- **`get_ds_val` comes back.** -/
theorem returns_of_inv (hi : RefInv E h) : Returns E rand h ds offset bits := by
  induction hi.ends ds generalizing offset bits with
  | intro ds _ ih =>
    by_cases hunset : (h ds).isUnset = true
    · obtain ⟨hin, hne⟩ := hi.inits ds hunset
      refine ⟨2, ?_⟩
      unfold getDsVal
      rw [get?_dsVal h rfl]
      simp only [dsVal, hunset, if_true, dsvInit_eq hin]
      obtain herr | ⟨hset, hno⟩ := dsvInitType_settled rand hne [] (h ds)
      · simp only [herr, if_true, Option.isSome_some]
      · by_cases herr : (dsvInitType rand (E.node (h ds).raw).type [] (h ds)).2 = true
        · simp only [herr, if_true, Option.isSome_some]
        · simp only [herr]
          refine getDsVal_settled ?_ ?_ offset bits 0
          · rw [set_dsVal h rfl, Function.update_self]
            exact E.fill_set _ _ hset
          · rw [set_dsVal h rfl, Function.update_self]
            exact (E.fill_ref _ _).elim id fun hsame => hsame.trans hno
    · have hset : (h ds).isUnset = false := by simpa using hunset
      cases hno : refNext h ds with
      | none => exact ⟨1, getDsVal_settled hset hno offset bits 0⟩
      | some c =>
        unfold refNext DataStateVal.refTarget at hno
        split at hno
        · rename_i raw v2 hv
          obtain ⟨fuel, hf⟩ := ih c (by rw [PointsAt, refNext, hv]; exact hno)
          refine ⟨fuel + 1, ?_⟩
          unfold getDsVal
          rw [get?_dsVal h rfl]
          simp only [dsVal, hv, hno]
          exact hf
        · cases hno

/-- Without a node that gives it a content, a value that has none is asked for for ever. -/
theorem not_returns (hunset : (h ds).isUnset = true) (hno : ¬ E.Inits (h ds).raw) :
    ¬ Returns E rand h ds offset bits := by
  rintro ⟨fuel, hf⟩
  induction fuel generalizing h with
  | zero => cases hf
  | succ fuel ih =>
    unfold getDsVal at hf
    rw [get?_dsVal h rfl] at hf
    simp only [dsVal, hunset, if_true] at hf
    by_cases hin : (E.node (h ds).raw).ssaOutside = true
    · simp only [dsvInit, hin, if_true, Bool.false_eq_true, if_false] at hf
      exact ih hunset hno hf
    · have hin' : (E.node (h ds).raw).ssaOutside = false := by simpa using hin
      have hempty : (E.node (h ds).raw).type.isEmpty = true := by
        by_contra hne
        exact hno ⟨hin', by simpa using hne⟩
      obtain ⟨s, n, hval⟩ := dsvInitType_empty rand hempty [] (h ds)
      have hinit : dsvInit E rand h (dsVal ds) (h ds) =
          (h.set (dsVal ds) (.sec3 (h ds).raw s n []), false) := by
        rw [dsvInit_eq hin', initVal, hval, E.fill_empty]
      simp only [dsVal] at hinit
      simp only [hinit, Bool.false_eq_true, if_false] at hf
      refine ih ?_ ?_ hf
      · rw [set_dsVal h rfl, Function.update_self]
        rfl
      · rw [set_dsVal h rfl, Function.update_self]
        exact hno

theorem RefInv.right (hi : RefInv E h) : RefsRight E h :=
  ⟨fun ds => not_revisits_of_ends (hi.ends ds), fun _ _ _ _ => returns_of_inv hi⟩

/-- What a step must not write at the top of a data state breaks the law. -/
theorem not_right_of_top {t : DsvLoc} (ht : t.path = []) {w : DataStateVal}
    (hw : ¬ TopRight E h t.ds w) : ¬ RefsRight E (h.set t w) := by
  rintro ⟨hcycle, hreturns⟩
  rw [set_dsVal h ht] at hcycle hreturns
  refine hw ⟨fun hunset => ?_, fun c hc hlead => hcycle t.ds ?_⟩
  · by_contra hno
    refine not_returns ?_ ?_ (hreturns (fun _ => 0) t.ds 0 0)
    · rwa [Function.update_self]
    · rwa [Function.update_self]
  · rw [refNext_update, hc]
    exact cycle_update hlead

/-! ## The operations -/

theorem dsVrefSetv_eq (h : DsHeap) (t : DsvLoc) (ds : Nat) (offset : Int) (bits : Nat) :
    ∃ offset', dsVrefSetv h t ds offset bits =
      dsVrefHoldSetv h t (setvTarget h ds) offset' bits := by
  unfold dsVrefSetv setvTarget
  cases h ds with
  | sec2 raw type v2 =>
    cases type with
    | addr => exact ⟨offset, rfl⟩
    | ref => exact ⟨s32 (offset + v2.offset), rfl⟩
  | _ => exact ⟨offset, rfl⟩

theorem dsVrefHoldSetv_cases {t : DsvLoc} {c : Option Nat} {h' : DsHeap} {err : Bool}
    (hx : dsVrefHoldSetv h t c offset bits = some (h', err)) :
    h' = h ∨ ∃ raw type v2, h.get? t = some (.sec2 raw type v2) ∧
      (type = .ref → c.map dsVal ≠ some t) ∧ h' = h.set t (.sec2 raw type ⟨c, offset, bits⟩) := by
  unfold dsVrefHoldSetv at hx
  split at hx
  · rename_i raw type v2 hget
    split at hx
    · cases hx
      exact Or.inl rfl
    · rename_i hself
      cases hx
      exact Or.inr ⟨raw, type, v2, hget, fun href heq => hself ⟨href, heq⟩, rfl⟩
  · cases hx

/-- A target that does not lead back, or that is refused, is right at the top. -/
theorem topRight_of_leadsAway {t : DsvLoc} (ht : t.path = []) {w : DataStateVal}
    (hunset : w.isUnset = true → E.Inits w.raw) (haway : LeadsAway h t.ds w.refTarget)
    (hself : w.refTarget.map dsVal ≠ some t) : TopRight E h t.ds w := by
  refine ⟨hunset, fun c hc => (haway c hc).resolve_left fun heq => hself ?_⟩
  rw [hc, heq, Option.map_some]
  exact congrArg some (congrArg (DsvLoc.mk t.ds) ht.symm)

/-- A target that leads back, and is not refused. -/
theorem exists_of_not_leadsAway {ds : Nat} {c : Option Nat} (hng : ¬ LeadsAway h ds c) :
    ∃ c', (c' ≠ ds ∧ Leads (refNext h) c' ds) ∧ c = some c' := by
  obtain ⟨c', hng⟩ := not_forall.mp hng
  obtain ⟨hc, hng⟩ := Classical.not_imp.mp hng
  obtain ⟨hne, hlead⟩ := not_or.mp hng
  exact ⟨c', ⟨hne, not_not.mp hlead⟩, hc⟩

theorem refInv_holdSetv (hi : RefInv E h) {t : DsvLoc} {c : Option Nat}
    (hg : t.path = [] → (h t.ds).isRef = true → LeadsAway h t.ds c) {h' : DsHeap} {err : Bool}
    (hx : dsVrefHoldSetv h t c offset bits = some (h', err)) : RefInv E h' := by
  obtain rfl | ⟨raw, type, v2, hget, hself, rfl⟩ := dsVrefHoldSetv_cases hx
  · exact hi
  · refine hi.set fun ht => ?_
    rw [get?_dsVal h ht, Option.some.injEq] at hget
    cases type with
    | addr => exact ⟨fun hunset => (by cases hunset), fun c hc => (by cases hc)⟩
    | ref =>
      refine topRight_of_leadsAway ht (fun hunset => (by cases hunset)) ?_ (hself rfl)
      exact hg ht (by rw [hget]; rfl)

theorem holdSetv_breaks {t : DsvLoc} {c : Option Nat}
    (hng : ¬ (t.path = [] → (h t.ds).isRef = true → LeadsAway h t.ds c)) :
    ∃ h' err, dsVrefHoldSetv h t c offset bits = some (h', err) ∧ ¬ RefsRight E h' := by
  obtain ⟨ht, hng⟩ := Classical.not_imp.mp hng
  obtain ⟨href, hng⟩ := Classical.not_imp.mp hng
  obtain ⟨c', ⟨hne, hlead⟩, rfl⟩ := exists_of_not_leadsAway hng
  unfold DataStateVal.isRef at href
  split at href
  · rename_i raw v2 hv
    have hself : ¬ ((some c').map dsVal = some t) := by
      rw [Option.map_some, Option.some.injEq]
      rintro rfl
      exact hne rfl
    refine ⟨h.set t (.sec2 raw .ref ⟨some c', offset, bits⟩), false, ?_, ?_⟩
    · unfold dsVrefHoldSetv
      rw [get?_dsVal h ht, hv]
      simp only [hself, and_false, if_false]
    · exact not_right_of_top ht fun htop => htop.2 c' rfl hlead
  · cases href

theorem dsvCopyDataForce_cases {dst src : DsvLoc} {h' : DsHeap} {err : Bool}
    (hx : dsvCopyDataForce h dst src = some (h', err)) :
    (dst = src ∧ ∃ d, h.get? dst = some d ∧ h' = h.set dst (.unk d.raw)) ∨
      dst ≠ src ∧ ¬ dst.Overlaps src ∧ ∃ s, h.get? src = some s ∧
        ((∃ raw, h' = h.set dst (.sec2 raw .ref ⟨none, 0, 0⟩)) ∨
          s.refTarget.map dsVal ≠ some dst ∧ h' = h.set dst s) := by
  unfold dsvCopyDataForce at hx
  split at hx
  · rename_i d s hd hs
    split at hx
    · rename_i heq
      cases hx
      exact Or.inl ⟨heq, d, hd, rfl⟩
    · rename_i hne
      split at hx
      · cases hx
      · rename_i hover
        refine Or.inr ⟨hne, hover, s, hs, ?_⟩
        split at hx
        · rename_i raw type v2
          split at hx
          · rename_i hself
            cases hx
            exact Or.inl ⟨d.raw, by rw [hself.1]⟩
          · rename_i hself
            cases hx
            refine Or.inr ⟨?_, rfl⟩
            cases type with
            | addr => exact fun heq => (by cases heq)
            | ref => exact fun heq => hself ⟨rfl, heq⟩
        · rename_i hno
          cases hx
          rw [DataStateVal.copy_eq]
          refine Or.inr ⟨?_, rfl⟩
          cases s with
          | sec2 raw type v2 => exact absurd rfl (hno raw type v2)
          | _ => exact fun heq => (by cases heq)
  · cases hx

theorem refInv_copyForce (hi : RefInv E h) {dst src : DsvLoc} {h' : DsHeap} {err : Bool}
    (hsame : dst.path = [] → dst = src → E.Inits (h dst.ds).raw) (hg : CopyApart E h dst src)
    (hx : dsvCopyDataForce h dst src = some (h', err)) : RefInv E h' := by
  obtain ⟨heq, d, hd, rfl⟩ | ⟨hne, hover, s, hs, ⟨raw, rfl⟩ | ⟨hself, rfl⟩⟩ :=
    dsvCopyDataForce_cases hx
  · refine hi.set fun ht => ⟨fun _ => ?_, fun c hc => (by cases hc)⟩
    rw [get?_dsVal h ht, Option.some.injEq] at hd
    exact hd ▸ hsame ht heq
  · exact hi.set fun ht => ⟨fun hunset => (by cases hunset), fun c hc => (by cases hc)⟩
  · refine hi.set fun ht => ?_
    obtain ⟨hunset, haway⟩ := hg ht hne hover s hs
    exact topRight_of_leadsAway ht hunset haway hself

theorem copy_breaks {dst src : DsvLoc} (hng : ¬ CopyApart E h dst src) :
    dst.path = [] ∧ dst ≠ src ∧ ∃ s h', h.get? src = some s ∧
      dsvCopyDataForce h dst src = some (h', false) ∧ ¬ RefsRight E h' := by
  obtain ⟨ht, hng⟩ := Classical.not_imp.mp hng
  obtain ⟨hne, hng⟩ := Classical.not_imp.mp hng
  obtain ⟨hover, hng⟩ := Classical.not_imp.mp hng
  obtain ⟨s, hng⟩ := not_forall.mp hng
  obtain ⟨hs, hng⟩ := Classical.not_imp.mp hng
  have hself : s.refTarget.map dsVal ≠ some dst := by
    intro heq
    obtain ⟨c, hc, rfl⟩ := Option.map_eq_some_iff.mp heq
    refine hng ⟨fun hunset => ?_, fun c' hc' => Or.inl ?_⟩
    · cases s with
      | sec2 raw type v2 => cases hunset
      | _ => cases hc
    · exact Option.some.inj (hc'.symm.trans hc)
  refine ⟨ht, hne, s, h.set dst s, hs,
    dsvCopyDataForce_eq (get?_dsVal h ht) hs hne hover hself, ?_⟩
  refine not_right_of_top ht fun htop => hng ⟨htop.1, fun c hc => Or.inr (htop.2 c hc)⟩

theorem copyForce_breaks {dst src : DsvLoc}
    (hng : ¬ ((dst.path = [] → dst = src → E.Inits (h dst.ds).raw) ∧ CopyApart E h dst src)) :
    ∃ h' err, dsvCopyDataForce h dst src = some (h', err) ∧ ¬ RefsRight E h' := by
  by_cases hcopy : CopyApart E h dst src
  · obtain ⟨ht, hng⟩ := Classical.not_imp.mp fun hsame => hng ⟨hsame, hcopy⟩
    obtain ⟨rfl, hno⟩ := Classical.not_imp.mp hng
    refine ⟨h.set dst (.unk (h dst.ds).raw), false, ?_, ?_⟩
    · unfold dsvCopyDataForce
      simp only [get?_dsVal h ht, if_true]
    · exact not_right_of_top ht fun htop => hno (htop.1 rfl)
  · obtain ⟨-, -, s, h', -, hx, hnr⟩ := copy_breaks hcopy
    exact ⟨h', false, hx, hnr⟩

theorem dsvCopyData_cases {dst src : DsvLoc} {h' : DsHeap} {err : Bool}
    (hx : dsvCopyData h dst src = some (h', err)) :
    h' = h ∨ dst ≠ src ∧ dsvCopyDataForce h dst src = some (h', err) ∧
      ∃ d s, h.get? dst = some d ∧ h.get? src = some s ∧ d.copyable s = true := by
  unfold dsvCopyData at hx
  split at hx
  · rename_i d s hd hs
    split at hx
    · cases hx
      exact Or.inl rfl
    · rename_i hne
      split at hx
      · cases hx
        exact Or.inl rfl
      · rename_i hcopy
        exact Or.inr ⟨hne, hx, d, s, hd, hs, not_not.mp hcopy⟩
  · cases hx

theorem refInv_alloc (hi : RefInv E h) {t : DsvLoc} {type : ValType} {v : DataStateVal}
    (hv : h.get? t = some v) (hg : t.path = [] → type.leavesUnset = true → E.Inits (h t.ds).raw) :
    RefInv E (h.set t (v.alloc type)) := by
  refine hi.set fun ht => ?_
  rw [get?_dsVal h ht, Option.some.injEq] at hv
  subst hv
  cases type with
  | unk => exact ⟨fun _ => hg ht rfl, fun c hc => (by cases hc)⟩
  | sec3 s n => exact ⟨fun _ => hg ht rfl, fun c hc => (by cases hc)⟩
  | sec1 type bytes => exact ⟨fun hunset => (by cases hunset), fun c hc => (by cases hc)⟩
  | sec2 type =>
    refine ⟨fun hunset => (by cases hunset), fun c hc => ?_⟩
    cases type <;> cases hc

theorem alloc_breaks {t : DsvLoc} {type : ValType}
    (hng : ¬ (t.path = [] → type.leavesUnset = true → E.Inits (h t.ds).raw)) :
    ∃ h', dsvAllocData h t type = some h' ∧ ¬ RefsRight E h' := by
  obtain ⟨ht, hng⟩ := Classical.not_imp.mp hng
  obtain ⟨hunset, hno⟩ := Classical.not_imp.mp hng
  refine ⟨h.set t ((h t.ds).alloc type), ?_, not_right_of_top ht fun htop => ?_⟩
  · unfold dsvAllocData
    rw [get?_dsVal h ht, Option.map_some]
  · cases type with
    | unk => exact hno (htop.1 rfl)
    | sec3 s n => exact hno (htop.1 rfl)
    | _ => cases hunset

theorem refInv_init (hi : RefInv E h) {t : DsvLoc} {v : DataStateVal} (hv : h.get? t = some v)
    (hg : t.path = [] → (E.node (h t.ds).raw).ssaOutside = true ∨
      (E.node (h t.ds).raw).type.isEmpty = false) : RefInv E (dsvInit E rand h t v).1 := by
  by_cases hin : (E.node v.raw).ssaOutside = true
  · unfold dsvInit
    rw [if_pos hin]
    exact hi
  · have hin' : (E.node v.raw).ssaOutside = false := by simpa using hin
    rw [dsvInit_eq hin']
    refine hi.set fun ht => ?_
    rw [get?_dsVal h ht, Option.some.injEq] at hv
    subst hv
    obtain ⟨hraw, href⟩ := initVal_frame E rand (h t.ds)
    refine ⟨fun hunset => ?_, fun c hc hlead => ?_⟩
    · rw [hraw hunset]
      exact ⟨hin', (hg ht).resolve_left hin⟩
    · -- `dsv_init` makes no reference: this one was there before, and its chain ends
      obtain hnone | hsame := href
      · cases hnone.symm.trans hc
      · exact not_revisits_of_ends (hi.ends t.ds) (.head' (hsame.symm.trans hc) hlead)

theorem init_breaks {t : DsvLoc} (hng : ¬ (t.path = [] →
    (E.node (h t.ds).raw).ssaOutside = true ∨ (E.node (h t.ds).raw).type.isEmpty = false)) :
    ∃ h', (h.get? t).map (fun v => (dsvInit E rand h t v).1) = some h' ∧ ¬ RefsRight E h' := by
  obtain ⟨ht, hng⟩ := Classical.not_imp.mp hng
  obtain ⟨hin, hne⟩ := not_or.mp hng
  obtain ⟨s, n, hval⟩ := dsvInitType_empty rand (by simpa using hne) [] (h t.ds)
  refine ⟨h.set t (.sec3 (h t.ds).raw s n []), ?_, not_right_of_top ht fun htop => ?_⟩
  · rw [get?_dsVal h ht, Option.map_some, dsvInit_eq (by simpa using hin), initVal, hval,
      E.fill_empty]
  · exact hne (htop.1 rfl).2

/-! ## Runs -/

theorem refInv_step (hi : RefInv E h) {e : DsEvent} (hg : StepApart E h e) {h' : DsHeap}
    (hx : dsStep E h e = some h') : RefInv E h' := by
  cases e with
  | alloc t type =>
    obtain ⟨v, hv, rfl⟩ := Option.map_eq_some_iff.mp hx
    exact refInv_alloc hi hv hg
  | setv t ds offset bits =>
    obtain ⟨offset', heq⟩ := dsVrefSetv_eq h t ds offset bits
    obtain ⟨⟨h', err⟩, hr, rfl⟩ := Option.map_eq_some_iff.mp hx
    exact refInv_holdSetv hi hg (heq ▸ hr)
  | holdSetv t ds offset bits =>
    obtain ⟨⟨h', err⟩, hr, rfl⟩ := Option.map_eq_some_iff.mp hx
    exact refInv_holdSetv hi hg hr
  | copy dst src =>
    obtain ⟨⟨h', err⟩, hr, rfl⟩ := Option.map_eq_some_iff.mp hx
    obtain rfl | ⟨hne, hforce, d, s, hd, hs, hcopy⟩ := dsvCopyData_cases hr
    · exact hi
    · refine refInv_copyForce hi (fun _ heq => absurd heq hne) (fun ht => ?_) hforce
      refine hg (fun s' hs' => ?_) ht
      rw [get?_dsVal h ht, Option.some.injEq] at hd
      obtain rfl := Option.some.inj (hs'.symm.trans hs)
      exact hd ▸ hcopy
  | copyForce dst src =>
    obtain ⟨⟨h', err⟩, hr, rfl⟩ := Option.map_eq_some_iff.mp hx
    exact refInv_copyForce hi hg.1 hg.2 hr
  | init t rand =>
    obtain ⟨v, hv, rfl⟩ := Option.map_eq_some_iff.mp hx
    exact refInv_init hi hv hg

theorem step_breaks {e : DsEvent} (hng : ¬ StepApart E h e) :
    ∃ h', dsStep E h e = some h' ∧ ¬ RefsRight E h' := by
  cases e with
  | alloc t type => exact alloc_breaks hng
  | setv t ds offset bits =>
    obtain ⟨offset', heq⟩ := dsVrefSetv_eq h t ds offset bits
    obtain ⟨h', err, hx, hnr⟩ := holdSetv_breaks hng
    exact ⟨h', by rw [dsStep, heq, hx, Option.map_some], hnr⟩
  | holdSetv t ds offset bits =>
    obtain ⟨h', err, hx, hnr⟩ := holdSetv_breaks hng
    exact ⟨h', by rw [dsStep, hx, Option.map_some], hnr⟩
  | copy dst src =>
    obtain ⟨hcopy, hng⟩ := Classical.not_imp.mp hng
    obtain ⟨ht, hne, s, h', hs, hx, hnr⟩ := copy_breaks hng
    refine ⟨h', ?_, hnr⟩
    have hx' : dsvCopyData h dst src = some (h', false) := by
      unfold dsvCopyData
      simp only [get?_dsVal h ht, hs, hne, hcopy s hs, not_true_eq_false, if_false]
      exact hx
    rw [dsStep, hx', Option.map_some]
  | copyForce dst src =>
    obtain ⟨h', err, hx, hnr⟩ := copyForce_breaks hng
    exact ⟨h', by rw [dsStep, hx, Option.map_some], hnr⟩
  | init t rand => exact init_breaks hng

theorem refInv_fresh {raws : Nat → Nat} (hinit : ∀ ds, E.Inits (raws ds)) :
    RefInv E (freshHeap raws) :=
  ⟨fun _ => Ends.of_none rfl, fun ds _ => hinit ds⟩

/-- **From fresh data states, no reference chain ever comes back and `get_ds_val` always comes back
    exactly when every data state has a node that `dsv_init` gives a content (or fails on) and every
    step is one that the callers have seen to.** -/
theorem refs_exact (E : DataEnv) (raws : Nat → Nat) (es : List DsEvent) :
    Visits (dsStep E) (RefsRight E) (freshHeap raws) es ↔
      (∀ ds, E.Inits (raws ds)) ∧ Along (dsStep E) (StepApart E) (freshHeap raws) es := by
  have hruns (hinit : ∀ ds, E.Inits (raws ds)) :
      Visits (dsStep E) (RefsRight E) (freshHeap raws) es ↔
        Along (dsStep E) (StepApart E) (freshHeap raws) es :=
    visits_iff_along (fun _ _ _ hi hg hx => refInv_step hi hg hx) (fun _ hi => hi.right)
      (fun _ _ _ hng => step_breaks hng) (refInv_fresh hinit)
  constructor
  · intro hv
    have hinit : ∀ ds, E.Inits (raws ds) := by
      intro ds
      by_contra hno
      exact not_returns rfl hno (hv.head.2 (fun _ => 0) ds 0 0)
    exact ⟨hinit, (hruns hinit).mp hv⟩
  · rintro ⟨hinit, hg⟩
    exact (hruns hinit).mpr hg

/-! ## A cycle by flattening, and an empty record -/

/-- 0 refers to 1 and 1 to 2; a pointer from 2 to 0 goes one step further, to 1. -/
def flattenedCycle : List DsEvent :=
  [.alloc (dsVal 0) (.sec2 .ref), .setv (dsVal 0) 1 0 32,
   .alloc (dsVal 1) (.sec2 .ref), .setv (dsVal 1) 2 0 32,
   .alloc (dsVal 2) (.sec2 .ref), .setv (dsVal 2) 0 0 32]

/-- The references of three integers go round in a circle, and `get_ds_val` of an empty record goes
    on for ever. -/
theorem reference_returns :
    ¬ Visits (dsStep (plainEnv (.number .intCst ⟨4, by decide⟩)))
        (RefsRight (plainEnv (.number .intCst ⟨4, by decide⟩))) (freshHeap id) flattenedCycle ∧
      ¬ Returns (plainEnv (.record false 0 [])) (fun _ => 0) (freshHeap id) 0 0 0 := by
  constructor
  · intro hv
    have hlast := visits_iff_exec.mp hv flattenedCycle [] _ (List.append_nil _).symm rfl
    exact hlast.1 1 (.head (b := 2) rfl (.single rfl))
  · exact not_returns rfl fun hinit => (by cases hinit.2)

end Srcinv.Analysis
