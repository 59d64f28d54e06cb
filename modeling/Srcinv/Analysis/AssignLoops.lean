import Srcinv.Analysis.AssignCopies

/-!
# Assignments that try one type after another

Declarations, constants and conversions take the first type of which both sides have a value and the
copy is not refused.  Integers are the last one, and a copy of one is never refused.

* `copyLoop_stores` — the loop stores the value, or what a conversion makes of it, where the places
  are clear.
* `loopMet_converted` — a conversion is right of the numbers that are in the type of the left side
  already.
-/

namespace Srcinv.Analysis

open Srcinv.Lib DsHeap

variable {A : AssignEnv} {T : AssignTypes} {h : DsHeap} {t u : DsvLoc} {v w : DataStateVal}

/-! ## The pair that is copied -/

/-- The place and the operand of the first type of which there are both and the copy passes. -/
def firstCopy (h : DsHeap) (larg rarg : List DsvLoc) : List DsvType → Option (DsvLoc × DsvLoc)
  | [] => none
  | type :: types =>
    match dsvArgFind h larg type, dsvArgFind h rarg type with
    | some l, some r => if copies h l r then some (l, r) else firstCopy h larg rarg types
    | _, _ => firstCopy h larg rarg types

section Loop

variable (A) (P : DataStateVal → DataStateVal → Prop) (extend : Bool) (larg rarg : List DsvLoc)
  (types : List DsvType) (h : DsHeap)

/-- `P` says what a copy of a value is. -/
def loopMeans : Meaning :=
  (firstCopy h larg rarg types).bind fun (l, r) => (h.get? r).map fun s => (l, P s)

/-- An operand as it is copied. -/
def readFor (s : DataStateVal) : DataStateVal := if extend then extendVal A s else s

def PlacesMet : Prop := ∀ l r, firstCopy h larg rarg types = some (l, r) → CopyClear h l r

/-- The places are clear, and an integer is what its copy is to be. -/
structure LoopMet : Prop where
  clear : PlacesMet larg rarg types h
  int : ∀ l r s, firstCopy h larg rarg types = some (l, r) → h.get? r = some s →
    s.type = .intCst → P s (readFor A extend s)

end Loop

/-- The types and the integers are what they were. -/
def IntsKept (h h' : DsHeap) : Prop :=
  SameTypes h h' ∧ ∀ t raw v1, h.get? t = some (.sec1 raw .intCst v1) →
    h'.get? t = some (.sec1 raw .intCst v1)

section Loop

variable {P : DataStateVal → DataStateVal → Prop} {h h' : DsHeap} {larg rarg : List DsvLoc}
  {types : List DsvType} {l r : DsvLoc}

theorem copies_int {raw raw' : Nat} {v w : List Nat} (hl : h.get? l = some (.sec1 raw .intCst v))
    (hr : h.get? r = some (.sec1 raw' .intCst w)) : copies h l r = true := by
  unfold copies
  rw [hl, hr]
  exact decide_eq_true (Or.inr ⟨rfl, fun hno => (by cases hno)⟩)

theorem readFor_kind {s : DataStateVal} (hs : s.kind = none) (extend : Bool) :
    (readFor A extend s).kind = none := by
  cases extend with
  | true => exact (extendVal_kind A s).trans hs
  | false => exact hs

/-- An integer is copied over another one. -/
theorem copyInt_ok (hk : IntsKept h h') {raw raw' : Nat} {v w : List Nat}
    (hl : h.get? l = some (.sec1 raw .intCst v)) (hr : h.get? r = some (.sec1 raw' .intCst w))
    (extend : Bool) :
    ∃ h'', dsvCopyVal (if extend then dsvExtend A h' r else h') l r = some (h'', false) ∧
      h''.get? l = some (readFor A extend (.sec1 raw' .intCst w)) := by
  have hl' := hk.2 l raw v hl
  have hr' := hk.2 r raw' w hr
  have hread : ∃ h₁, (if extend then dsvExtend A h' r else h') = h₁ ∧
      h₁.get? r = some (readFor A extend (.sec1 raw' .intCst w)) ∧ SameKinds h' h₁ := by
    cases extend with
    | true =>
      refine ⟨_, if_pos rfl, dsvExtend_get hr', ?_⟩
      rw [dsvExtend_eq hr']
      exact sameKinds_set hr' rfl rfl
    | false => exact ⟨_, if_neg Bool.false_ne_true, hr', fun _ => rfl⟩
  obtain ⟨h₁, heq, hs, hkinds⟩ := hread
  have hkind : (readFor A extend (.sec1 raw' .intCst w)).kind = none := readFor_kind rfl extend
  have href : (readFor A extend (.sec1 raw' .intCst w)).refTarget = none := by
    cases extend with
    | true => rfl
    | false => rfl
  have hc : copies h₁ l r = true :=
    (copies_congr hkinds hr' hs hkind href l).trans (copies_int hl' hr')
  obtain ⟨d, hd, hdkind⟩ := kind_of_copies hc hs
  have hclear := copyClear_of_kind hd hs (hdkind.trans hkind) hkind
  rw [heq]
  obtain ⟨-, hno⟩ | ⟨h'', hok, hgood⟩ := dsvCopyVal_cases hs hc
  · exact absurd hclear hno
  · exact ⟨h'', hok, hgood.mpr hclear⟩

/-- The integers of both sides come first: the copy is `P` or not. -/
theorem loopInt_stores (hk : IntsKept h h') {raw raw' : Nat} {v w : List Nat}
    (hl : h.get? l = some (.sec1 raw .intCst v)) (hr : h.get? r = some (.sec1 raw' .intCst w))
    (extend : Bool) (rest : DsHeap → Option AssignRes) :
    Stores (match dsvCopyVal (if extend then dsvExtend A h' r else h') l r with
      | none => none
      | some (h, false) => some (.ok h (some l))
      | some (h, true) => rest h) ((h.get? r).map fun s => (l, P s)) ↔
    P (.sec1 raw' .intCst w) (readFor A extend (.sec1 raw' .intCst w)) := by
  obtain ⟨h'', hok, hget⟩ := copyInt_ok (A := A) hk hl hr extend
  rw [hok, hr, Option.map_some]
  refine stores_ok.trans ⟨fun ⟨w', hw', hP⟩ => ?_, fun hP => ⟨_, hget, hP⟩⟩
  cases hget.symm.trans hw'
  exact hP

theorem loopMet_int_iff {raw raw' : Nat} {v w : List Nat}
    (hl : h.get? l = some (.sec1 raw .intCst v)) (hr : h.get? r = some (.sec1 raw' .intCst w))
    {extend : Bool} (hfirst : firstCopy h larg rarg types = some (l, r)) :
    P (.sec1 raw' .intCst w) (readFor A extend (.sec1 raw' .intCst w)) ↔
      LoopMet A P extend larg rarg types h := by
  constructor
  · intro hP
    refine ⟨fun l' r' heq => ?_, fun l' r' s heq hs _ => ?_⟩
    · cases hfirst.symm.trans heq
      exact copyClear_of_kind hl hr rfl rfl
    · cases hfirst.symm.trans heq
      cases hr.symm.trans hs
      exact hP
  · exact fun hmet => hmet.int l r _ hfirst hr rfl

theorem loopMet_congr {extend : Bool} {types' : List DsvType}
    (heq : firstCopy h larg rarg types' = firstCopy h larg rarg types) :
    LoopMet A P extend larg rarg types' h ↔ LoopMet A P extend larg rarg types h := by
  constructor
  · exact fun hmet => ⟨fun l r hf => hmet.clear l r (heq.trans hf),
      fun l r s hf => hmet.int l r s (heq.trans hf)⟩
  · exact fun hmet => ⟨fun l r hf => hmet.clear l r (heq.symm.trans hf),
      fun l r s hf => hmet.int l r s (heq.symm.trans hf)⟩

/-- Integers come last, and the copy of one does not fail. -/
theorem copyLoop_ints (extend : Bool) (hint : ∀ type ∈ types, type = .intCst)
    (hk : IntsKept h h') :
    Stores (copyLoop A extend larg rarg types h') (loopMeans P larg rarg types h) ↔
      LoopMet A P extend larg rarg types h := by
  induction types with
  | nil => exact iff_of_true (stores_err h' _) ⟨fun _ _ hno => (by cases hno),
      fun _ _ _ hno => by cases hno⟩
  | cons type types ih =>
    obtain rfl := hint type (List.mem_cons_self ..)
    have ih := ih fun type ht => hint type (List.mem_cons_of_mem _ ht)
    unfold copyLoop
    rw [dsvArgFind_congr hk.1, dsvArgFind_congr hk.1]
    cases hl : dsvArgFind h larg .intCst with
    | none =>
      have hfirst : firstCopy h larg rarg (.intCst :: types) = firstCopy h larg rarg types := by
        rw [firstCopy, hl]
      rw [loopMet_congr hfirst, loopMeans, hfirst]
      exact ih
    | some l =>
      cases hr : dsvArgFind h rarg .intCst with
      | none =>
        have hfirst : firstCopy h larg rarg (.intCst :: types) = firstCopy h larg rarg types := by
          rw [firstCopy, hl, hr]
        rw [loopMet_congr hfirst, loopMeans, hfirst]
        exact ih
      | some r =>
        obtain ⟨raw, v, hv⟩ := dsvArgFind_int hl
        obtain ⟨raw', w, hw⟩ := dsvArgFind_int hr
        have hfirst : firstCopy h larg rarg (.intCst :: types) = some (l, r) := by
          rw [firstCopy, hl, hr]
          exact if_pos (copies_int hv hw)
        rw [loopMeans, hfirst, Option.bind_some]
        exact (loopInt_stores hk hv hw extend _).trans (loopMet_int_iff hv hw hfirst)

theorem extendVal_of_type {s : DataStateVal} (hs : s.type ≠ .intCst) : extendVal A s = s := by
  cases s with
  | sec1 raw type v1 =>
    cases type with
    | intCst => exact absurd rfl hs
    | realCst => rfl
  | _ => rfl

/-- `dsv_extend` leaves what is no integer as it is. -/
theorem extend_other {s : DataStateVal} (hs : h.get? r = some s) (htype : s.type ≠ .intCst)
    (extend : Bool) : (if extend then dsvExtend A h r else h) = h := by
  cases extend with
  | false => rfl
  | true =>
    simp only [if_true]
    rw [dsvExtend_eq hs, extendVal_of_type htype]
    unfold DsHeap.set
    rw [DataStateVal.set_get? hs]
    exact Function.update_eq_self r.ds h

/-- The loop over the types, of which only integers follow references. -/
theorem copyLoop_stores (extend : Bool)
    (hP : ∀ s w, s.type ≠ .intCst → (P s w ↔ w = s))
    (htypes : types.Pairwise fun type type' => type = .ref → type' = .intCst) :
    Stores (copyLoop A extend larg rarg types h) (loopMeans P larg rarg types h) ↔
      LoopMet A P extend larg rarg types h := by
  induction types with
  | nil => exact iff_of_true (stores_err h _) ⟨fun _ _ hno => (by cases hno),
      fun _ _ _ hno => by cases hno⟩
  | cons type types ih =>
    obtain ⟨hlate, hrest⟩ := List.pairwise_cons.mp htypes
    have ih := ih hrest
    unfold copyLoop
    cases hl : dsvArgFind h larg type with
    | none =>
      have hfirst : firstCopy h larg rarg (type :: types) = firstCopy h larg rarg types := by
        rw [firstCopy, hl]
      rw [loopMet_congr hfirst, loopMeans, hfirst]
      exact ih
    | some l =>
      cases hr : dsvArgFind h rarg type with
      | none =>
        have hfirst : firstCopy h larg rarg (type :: types) = firstCopy h larg rarg types := by
          rw [firstCopy, hl, hr]
        rw [loopMet_congr hfirst, loopMeans, hfirst]
        exact ih
      | some r =>
        dsimp only
        by_cases hint : type = .intCst
        · subst hint
          obtain ⟨raw, v, hv⟩ := dsvArgFind_int hl
          obtain ⟨raw', w, hw⟩ := dsvArgFind_int hr
          have hfirst : firstCopy h larg rarg (.intCst :: types) = some (l, r) := by
            rw [firstCopy, hl, hr]
            exact if_pos (copies_int hv hw)
          rw [loopMeans, hfirst, Option.bind_some]
          exact (loopInt_stores ⟨fun _ => rfl, fun _ _ _ hsame => hsame⟩ hv hw extend _).trans
            (loopMet_int_iff hv hw hfirst)
        · obtain ⟨d, hd, hdtype⟩ := dsvArgFind_spec hl
          obtain ⟨s, hs, htype⟩ := dsvArgFind_spec hr
          have hother : s.type ≠ .intCst := by rw [htype]; exact hint
          rw [extend_other hs hother]
          cases hc : copies h l r with
          | true =>
            have hfirst : firstCopy h larg rarg (type :: types) = some (l, r) := by
              rw [firstCopy, hl, hr]
              exact if_pos hc
            rw [loopMeans, hfirst, Option.bind_some]
            dsimp only
            rw [hs, Option.map_some]
            have hmet : LoopMet A P extend larg rarg (type :: types) h ↔ CopyClear h l r := by
              constructor
              · exact fun hmet => hmet.clear l r hfirst
              · intro hclear
                refine ⟨fun l' r' heq => ?_, fun l' r' s' heq hs' hno => ?_⟩
                · cases hfirst.symm.trans heq
                  exact hclear
                · cases hfirst.symm.trans heq
                  cases hs.symm.trans hs'
                  exact absurd hno hother
            rw [hmet, ← copied_stores (P s) hs hc ((hP s s hother).mpr rfl) fun _ w hw =>
              (hP s w hother).mp hw]
            obtain ⟨hnone, -⟩ | ⟨h', hok, -⟩ := dsvCopyVal_cases hs hc
            · rw [hnone]
              rfl
            · rw [hok]
              rfl
          | false =>
            have hfirst : firstCopy h larg rarg (type :: types) = firstCopy h larg rarg types := by
              rw [firstCopy, hl, hr]
              exact if_neg (by rw [hc]; exact Bool.false_ne_true)
            rw [loopMet_congr hfirst, loopMeans, hfirst]
            obtain ⟨h', hfail, rfl | ⟨hkind, href, hne, rfl⟩⟩ := dsvCopyVal_fails hd hs hc
            · rw [hfail]
              exact ih
            · rw [hfail]
              have href' : type = .ref := htype.symm.trans href
              refine copyLoop_ints extend (fun type' ht => hlate type' ht href') ⟨?_, ?_⟩
              · exact sameTypes_set hd hkind rfl (href'.symm.trans hdtype.symm)
              · refine fun t raw v1 ht => get?_set_ne hd ht hkind rfl (fun heq => ?_) _
                subst heq
                rw [Option.some.inj (hd.symm.trans ht)] at hdtype
                exact hint hdtype.symm

theorem firstCopy_spec {s : DataStateVal} (hfirst : firstCopy h larg rarg types = some (l, r))
    (hs : h.get? r = some s) : dsvArgFind h rarg s.type = some r := by
  induction types with
  | nil => cases hfirst
  | cons type types ih =>
    unfold firstCopy at hfirst
    split at hfirst
    · rename_i l' r' hl hr
      split at hfirst
      · cases hfirst
        obtain ⟨s', hs', htype⟩ := dsvArgFind_spec hr
        cases hs.symm.trans hs'
        rw [htype]
        exact hr
      · exact ih hfirst
    · exact ih hfirst

theorem sameValue_iff (s w : DataStateVal) (hs : s.type ≠ .intCst) :
    SameValue T s w ↔ w = s := by
  cases s with
  | sec1 raw type v1 =>
    cases type with
    | intCst => exact absurd rfl hs
    | realCst => exact Iff.rfl
  | _ => exact Iff.rfl

theorem converted_iff (s w : DataStateVal) (hs : s.type ≠ .intCst) : Converted T s w ↔ w = s := by
  cases s with
  | sec1 raw type v1 =>
    cases type with
    | intCst => exact absurd rfl hs
    | realCst => exact Iff.rfl
  | _ => exact Iff.rfl

/-- What `dsv_extend` leaves of an integer is a copy of it. -/
theorem loopMet_same {a : AssignArgs} (hp : Plain A T a h) :
    LoopMet A (SameValue T) true larg a.rarg1 types h ↔ PlacesMet larg a.rarg1 types h := by
  refine ⟨fun hmet => hmet.clear, fun hclear => ⟨hclear, fun l r s hfirst hs htype => ?_⟩⟩
  obtain ⟨raw, v1, rfl⟩ := eq_intCst htype
  exact (intOperand_of_find hp (Or.inl (firstCopy_spec hfirst hs)) hs).sameValue

/-- An integer that is converted is one of the type of the left side. -/
def ConvertMet (T : AssignTypes) (larg rarg : List DsvLoc) (types : List DsvType) (h : DsHeap) :
    Prop :=
  ∀ l r x, firstCopy h larg rarg types = some (l, r) → intAt T h r = some x →
    wrap T.lhs.signed T.lhs.prec x = x

theorem loopMet_converted : LoopMet A (Converted T) false larg rarg types h ↔
    PlacesMet larg rarg types h ∧ ConvertMet T larg rarg types h := by
  have hint : ∀ raw v1, Converted T (.sec1 raw .intCst v1) (.sec1 raw .intCst v1) ↔
      wrap T.lhs.signed T.lhs.prec ((T.node raw).value v1) = (T.node raw).value v1 := fun raw v1 =>
    ⟨fun hc => (Option.some.inj hc).symm, fun hx => congrArg some hx.symm⟩
  constructor
  · intro hmet
    refine ⟨hmet.clear, fun l r x hfirst hx => ?_⟩
    obtain ⟨raw, v1, hv, rfl⟩ := int_of_intAt hx
    exact (hint raw v1).mp (hmet.int l r _ hfirst hv rfl)
  · rintro ⟨hclear, hconvert⟩
    refine ⟨hclear, fun l r s hfirst hs htype => ?_⟩
    obtain ⟨raw, v1, rfl⟩ := eq_intCst htype
    exact (hint raw v1).mpr (hconvert l r _ hfirst (intAt_int hs))

end Loop

end Srcinv.Analysis
