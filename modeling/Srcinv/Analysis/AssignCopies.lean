import Srcinv.Analysis.AssignCases

/-!
# Assignments that copy a value

`dsv_copy_data` frees its destination, and copies a constructor element by element; a destination
that has the source in it, or is in it, is written while it is read.

* `CopyClear` — the two values are one, or apart, or the copy of a value into a part of itself
  comes out.
* `caseMemRef_stores`, `caseComponentRef_stores` — integers are copied late, and other values clear.
* `copyToArg_stores` — the loop over places copies to the first that it can.
-/

namespace Srcinv.Analysis

open Srcinv.Lib DsHeap

variable {A : AssignEnv} {T : AssignTypes} {h : DsHeap} {t u : DsvLoc} {v w : DataStateVal}

/-! ## The cases that copy -/

/-- Whether a copy passes its checks. -/
def copies (h : DsHeap) (dst src : DsvLoc) : Bool :=
  match h.get? dst, h.get? src with
  | some d, some s => dst = src ∨ d.copyable s ∧ s.refTarget.map dsVal ≠ some dst
  | _, _ => false

/-- A part of a constructor is what has been copied of it when the turn of the part comes. -/
def PartMet (d : DataStateVal) : DataStateVal → List Nat → Prop
  | .sec3 _ subtype total v3, i :: _ => d = .sec3 d.raw subtype total (v3.take i)
  | _, _ => False

/-- The values of a copy are one, or apart, or the first is a part of the other that it may be
    copied into. -/
def CopyClear (h : DsHeap) (dst src : DsvLoc) : Prop :=
  dst.Overlaps src → dst = src ∨ dst.Inside src ∧ ∃ d s, h.get? dst = some d ∧
    h.get? src = some s ∧ PartMet d s (dst.path.drop src.path.length)

theorem copiedInside_eq_iff {d s : DataStateVal} {i : Nat} {path : List Nat}
    (hd : s.get? (i :: path) = some d) : copiedInside d s (i :: path) = s ↔
      PartMet d s (i :: path) := by
  cases s with
  | sec3 raw subtype total v3 =>
    obtain ⟨e, he, hd⟩ := Option.bind_eq_some_iff.mp hd
    unfold copiedInside PartMet
    constructor
    · intro hsame
      injection hsame with _ _ _ hsame
      have helem := congrArg (fun v3 => v3[i]?) hsame
      simp only [List.getElem?_modify_eq, he, Option.map_eq_map, Option.map_some] at helem
      have hval : e.val.set path (.sec3 d.raw subtype total (v3.take i)) = e.val :=
        congrArg DataStateVal1.val (Option.some.inj helem)
      have hget := DataStateVal.get?_set hd (.sec3 d.raw subtype total (v3.take i))
      rw [hval, hd] at hget
      exact Option.some.inj hget
    · intro hmet
      have hset : (DataStateVal.sec3 raw subtype total v3).set (i :: path) d =
          .sec3 raw subtype total v3 :=
        DataStateVal.set_get? (Option.bind_eq_some_iff.mpr ⟨e, he, hd⟩)
      rw [DataStateVal.set] at hset
      have hmet : d = .sec3 d.raw subtype total (v3.take i) := hmet
      dsimp only
      rw [← hmet]
      exact hset
  | _ => cases hd

/-- A copy that passes its checks reads what is freed, or leaves the value where it is clear. -/
theorem dsvCopyVal_cases {h : DsHeap} {dst src : DsvLoc} {s : DataStateVal}
    (hs : h.get? src = some s) (hc : copies h dst src = true) :
    dsvCopyVal h dst src = none ∧ ¬ CopyClear h dst src ∨
      ∃ h', dsvCopyVal h dst src = some (h', false) ∧
        (h'.get? dst = some s ↔ CopyClear h dst src) := by
  unfold copies at hc
  cases hd : h.get? dst with
  | none =>
    rw [hd] at hc
    cases hc
  | some d =>
    simp only [hd, hs, decide_eq_true_eq] at hc
    unfold dsvCopyVal CopyClear
    simp only [hd, hs]
    by_cases heq : dst = src
    · subst heq
      have hin : ¬ dst.Inside dst := fun hin => hin.2.2 rfl
      simp only [hin, false_and, if_false, dsvCopyData, hd, if_true]
      exact Or.inr ⟨h, rfl, iff_of_true hs fun _ => Or.inl trivial⟩
    · obtain ⟨hcopy, hself⟩ := hc.resolve_left heq
      by_cases hin : dst.Inside src
      · obtain ⟨hds, ⟨path, hpath⟩, -⟩ := id hin
        have hover : dst.Overlaps src := ⟨hds, Or.inr ⟨path, hpath⟩⟩
        have hdrop : dst.path.drop src.path.length = path := by
          rw [← hpath, List.drop_left]
        have hget : s.get? path = some d := (get?_below hs hds.symm hpath).symm.trans hd
        simp only [hin, hcopy, and_self, if_true, hdrop, hover, heq, false_or, true_and,
          forall_const]
        refine Or.inr ⟨_, rfl, ?_⟩
        rw [get?_set hd, Option.some_inj]
        cases path with
        | nil =>
          obtain ⟨ds, path'⟩ := dst
          obtain ⟨ds', path''⟩ := src
          obtain rfl : ds = ds' := hds
          obtain rfl : path' = path'' := by simpa using hpath.symm
          exact absurd rfl heq
        | cons i path =>
          rw [copiedInside_eq_iff hget]
          constructor
          · exact fun hmet => ⟨d, s, rfl, rfl, hmet⟩
          · rintro ⟨d', s', hd', hs', hmet⟩
            cases hd'
            cases hs'
            exact hmet
      · by_cases hover : dst.Overlaps src
        · simp only [hin, false_and, if_false, dsvCopyData, dsvCopyDataForce, hd, hs, heq, hcopy,
            hover, if_true, not_true_eq_false, or_false, forall_const]
          exact Or.inl ⟨trivial, not_false⟩
        · simp only [hin, false_and, if_false, dsvCopyData, hd, hs, heq, hcopy, hover,
            not_true_eq_false, false_implies, iff_true]
          exact Or.inr ⟨_, dsvCopyDataForce_eq hd hs heq hover hself, get?_set hd s⟩

/-- A copy that fails its checks leaves the heap, or a reference to nothing. -/
theorem dsvCopyVal_fails {h : DsHeap} {dst src : DsvLoc} {d s : DataStateVal}
    (hd : h.get? dst = some d) (hs : h.get? src = some s) (hc : copies h dst src = false) :
    ∃ h', dsvCopyVal h dst src = some (h', true) ∧ (h' = h ∨ d.kind = none ∧ s.type = .ref ∧
      dst ≠ src ∧ h' = h.set dst (.sec2 d.raw .ref ⟨none, 0, 0⟩)) := by
  unfold copies at hc
  simp only [hd, hs, decide_eq_false_iff_not, not_or] at hc
  obtain ⟨heq, hc⟩ := hc
  unfold dsvCopyVal dsvCopyData
  simp only [hd, hs, heq, if_false]
  by_cases hcopy : d.copyable s = true
  · have hself : s.refTarget.map dsVal = some dst := by
      by_contra hno
      exact hc ⟨hcopy, hno⟩
    cases s with
    | sec2 raw type v2 =>
      cases type with
      | addr => cases hself
      | ref =>
        have hkind : d.kind = none := by
          rw [DataStateVal.copyable_eq, decide_eq_true_eq] at hcopy
          exact hcopy
        have hover : ¬ dst.Overlaps src := fun hover => heq (eq_of_overlaps hd hs hkind rfl hover)
        have hin : ¬ dst.Inside src := fun hin => hover ⟨hin.1, Or.inr hin.2.1⟩
        have hself' : v2.ds.map dsVal = some dst := hself
        simp only [hin, false_and, if_false, hcopy, not_true_eq_false, dsvCopyDataForce, hd, hs,
          heq, hover, hself', and_self, if_true]
        exact ⟨_, rfl, Or.inr ⟨hkind, rfl, fun hno => heq hno, rfl⟩⟩
    | _ => cases hself
  · rw [if_neg fun hboth => hcopy hboth.2, if_pos hcopy]
    exact ⟨h, rfl, Or.inl rfl⟩

/-- A copy that passes its checks. -/
theorem copied_stores {h : DsHeap} {dst src : DsvLoc} {s : DataStateVal}
    (P : DataStateVal → Prop) (hs : h.get? src = some s) (hc : copies h dst src = true) (hP : P s)
    (huniq : ¬ CopyClear h dst src → ∀ w, P w → w = s) :
    Stores (copyRes dst (dsvCopyVal h dst src)) (some (dst, P)) ↔ CopyClear h dst src := by
  obtain ⟨hnone, hno⟩ | ⟨h', hok, hclear⟩ := dsvCopyVal_cases hs hc
  · rw [hnone]
    exact iff_of_false not_stores_none hno
  · rw [hok, ← hclear]
    refine stores_ok.trans ⟨fun ⟨w, hw, hPw⟩ => ?_, fun hget => ⟨s, hget, hP⟩⟩
    by_cases hyes : CopyClear h dst src
    · exact hclear.mpr hyes
    · rw [hw, huniq hyes w hPw]

def CopyMet (h : DsHeap) (l r : DsvLoc) : Prop := copies h l r = true → CopyClear h l r

/-- The value of an operand. -/
def copyMeans (h : DsHeap) (l r : DsvLoc) : Meaning := (h.get? r).map fun s => (l, fun w => w = s)

theorem copy_stores {h : DsHeap} {l r : DsvLoc} {d s : DataStateVal} (hd : h.get? l = some d)
    (hs : h.get? r = some s) :
    Stores (copyRes l (dsvCopyVal h l r)) (copyMeans h l r) ↔ CopyMet h l r := by
  unfold copyMeans CopyMet
  rw [hs, Option.map_some]
  cases hc : copies h l r with
  | true =>
    rw [copied_stores (fun w => w = s) hs hc rfl fun _ _ hw => hw]
    exact ⟨fun hclear _ => hclear, fun hmet => hmet rfl⟩
  | false =>
    obtain ⟨h', hfail, -⟩ := dsvCopyVal_fails hd hs hc
    rw [hfail]
    exact iff_of_true (stores_err h' _) fun hno => by cases hno

theorem firstBoth_spec {h : DsHeap} {larg rarg : List DsvLoc} {types : List DsvType}
    {type : DsvType} {l r : DsvLoc} (hb : firstBoth h larg rarg types = some (type, l, r)) :
    type ∈ types ∧ dsvArgFind h larg type = some l ∧ dsvArgFind h rarg type = some r := by
  induction types with
  | nil => cases hb
  | cons type' types ih =>
    unfold firstBoth at hb
    split at hb
    · rename_i l' r' hl hr
      cases hb
      exact ⟨List.mem_cons_self .., hl, hr⟩
    · obtain ⟨hmem, hfound⟩ := ih hb
      exact ⟨List.mem_cons_of_mem _ hmem, hfound⟩

section Refs

variable (A T) (st : AssignStmt) (a : AssignArgs) (h : DsHeap)

/-- The number of an integer operand, in the bytes of the left side. -/
def intMeans (l r : DsvLoc) : Meaning :=
  (intAt T h r).bind fun x => spelled st.lhsBytes (l, x)

/-- `bytes` of an integer operand are copied late. -/
def IntMet (l r : DsvLoc) (bytes : Nat → List Nat → Nat) : Prop :=
  ∀ raw v1, h.get? r = some (.sec1 raw .intCst v1) →
    LateMet l r (min (bytes raw v1) v1.length) st.lhsBytes ((T.node raw).value v1)

def memRefMeans : Meaning :=
  match firstBoth h a.larg a.rarg1 [.constructor, .addr, .intCst] with
  | none => none
  | some (.intCst, l, r1) => intMeans T st h l r1
  | some (_, l, r1) => copyMeans h l r1

def MemRefMet : Prop :=
  match firstBoth h a.larg a.rarg1 [.constructor, .addr, .intCst] with
  | none => True
  | some (.intCst, l, r1) => IntMet T st h l r1 fun _ v1 => v1.length
  | some (_, l, r1) => CopyMet h l r1

/-- An address or a reference is taken over. -/
def takenMeans (l r1 : DsvLoc) : Meaning :=
  match h.get? r1 with
  | some (.sec2 _ type v2) => some (l, fun w => ∃ raw, w = .sec2 raw type v2)
  | _ => none

def componentRefMeans : Meaning :=
  match firstBoth h a.larg a.rarg1 [.constructor, .addr, .ref, .intCst] with
  | none => none
  | some (.constructor, l, r1) => copyMeans h l r1
  | some (.intCst, l, r1) => intMeans T st h l r1
  | some (_, l, r1) => takenMeans h l r1

def ComponentRefMet : Prop :=
  match firstBoth h a.larg a.rarg1 [.constructor, .addr, .ref, .intCst] with
  | some (.constructor, l, r1) => CopyMet h l r1
  | some (.intCst, l, r1) => IntMet T st h l r1 fun raw _ => A.typeBits raw / BITS_PER_UNIT
  | _ => True

end Refs

/-- An integer that a `MEM_REF` or a `COMPONENT_REF` copies. -/
theorem lateRef_stores {st : AssignStmt} {a : AssignArgs} (hp : Plain A T a h) {l r : DsvLoc}
    (hl : dsvArgFind h a.larg .intCst = some l) (hr : dsvArgFind h a.rarg1 .intCst = some r)
    {raw : Nat} {v1 : List Nat} (hv : h.get? r = some (.sec1 raw .intCst v1))
    (bits : List Nat → Nat) (hbits : bits (extendBytes (A.ext raw) v1) = bits v1) :
    Stores (copyLate A (dsvExtend A h r) l r st.lhsBytes bits) (intMeans T st h l r) ↔
      LateMet l r (min (bits v1 / BITS_PER_UNIT) v1.length) st.lhsBytes
        ((T.node raw).value v1) := by
  have hop := intOperand_of_find hp (Or.inl hr) hv
  obtain ⟨rawl, vl, hplace⟩ := dsvArgFind_int hl
  obtain ⟨x, hx, -, hkind⟩ := dsvExtend_raw (A := A) hv hplace rfl rfl
  unfold intMeans
  rw [hop.value, Option.bind_some, late_stores hx hkind (dsvExtend_get hv) hop.extended,
    length_extendBytes, hbits]

theorem intMet_iff {st : AssignStmt} {l r : DsvLoc} {raw : Nat} {v1 : List Nat}
    (hv : h.get? r = some (.sec1 raw .intCst v1)) (bytes : Nat → List Nat → Nat) :
    IntMet T st h l r bytes ↔
      LateMet l r (min (bytes raw v1) v1.length) st.lhsBytes ((T.node raw).value v1) := by
  constructor
  · exact fun hall => hall raw v1 hv
  · intro hone raw' v1' hv'
    cases hv.symm.trans hv'
    exact hone

theorem caseMemRef_stores (st : AssignStmt) {a : AssignArgs} (hp : Plain A T a h) :
    Stores (caseMemRef A st a h) (memRefMeans T st a h) ↔ MemRefMet T st a h := by
  unfold caseMemRef memRefMeans MemRefMet
  cases hb : firstBoth h a.larg a.rarg1 [.constructor, .addr, .intCst] with
  | none => exact iff_of_true (stores_err h _) trivial
  | some found =>
    obtain ⟨type, l, r1⟩ := found
    obtain ⟨-, hl, hr⟩ := firstBoth_spec hb
    obtain ⟨d, hd, -⟩ := dsvArgFind_spec hl
    obtain ⟨s, hs, -⟩ := dsvArgFind_spec hr
    cases type with
    | intCst =>
      obtain ⟨raw, v1, hr1⟩ := dsvArgFind_int hr
      refine (lateRef_stores hp hl hr hr1 _ ?_).trans ?_
      · rw [length_extendBytes]
      · rw [Nat.mul_div_cancel _ (by decide)]
        exact (intMet_iff hr1 fun _ v1 => v1.length).symm
    | _ => exact copy_stores hd hs

theorem taken_stores {h : DsHeap} {l r : DsvLoc} {d : DataStateVal} (hd : h.get? l = some d)
    {raw : Nat} {type : Sec2} {v2 : DataStateValRef} (hr : h.get? r = some (.sec2 raw type v2)) :
    Stores (if l = r then some (.ok h (some l)) else storeRef h l type v2) (takenMeans h l r) := by
  unfold takenMeans
  rw [hr]
  dsimp only
  by_cases heq : l = r
  · subst heq
    rw [if_pos rfl]
    exact stores_ok.mpr ⟨_, hr, raw, rfl⟩
  · rw [if_neg heq]
    by_cases hself : type = .ref ∧ v2.ds.map dsVal = some l
    · obtain ⟨rfl, hds⟩ := hself
      have halloc : (h.set l (d.alloc (.sec2 .ref))).get? l =
          some (.sec2 d.raw .ref ⟨none, 0, 0⟩) := get?_set hd _
      have hfail : dsVrefHoldSetv (h.set l (d.alloc (.sec2 .ref))) l v2.ds v2.offset v2.bits =
          some (h.set l (d.alloc (.sec2 .ref)), true) := by
        unfold dsVrefHoldSetv
        rw [halloc]
        exact if_pos ⟨rfl, hds⟩
      unfold storeRef dsvAllocData
      rw [hd, Option.map_some]
      dsimp only
      rw [hfail]
      exact stores_err _ _
    · exact (storeRef_stores hd type v2 v2 hself).mpr rfl

theorem caseComponentRef_stores (st : AssignStmt) {a : AssignArgs} (hp : Plain A T a h) :
    Stores (caseComponentRef A st a h) (componentRefMeans T st a h) ↔
      ComponentRefMet A T st a h := by
  unfold caseComponentRef componentRefMeans ComponentRefMet
  cases hb : firstBoth h a.larg a.rarg1 [.constructor, .addr, .ref, .intCst] with
  | none => exact iff_of_true (stores_err h _) trivial
  | some found =>
    obtain ⟨type, l, r1⟩ := found
    obtain ⟨hmem, hl, hr⟩ := firstBoth_spec hb
    obtain ⟨d, hd, -⟩ := dsvArgFind_spec hl
    obtain ⟨s, hs, htype⟩ := dsvArgFind_spec hr
    have hpointer : type ≠ .constructor → type ≠ .intCst →
        ∃ raw type v2, s = .sec2 raw type v2 := fun hne hne' => by
      cases s with
      | sec2 raw type v2 => exact ⟨raw, type, v2, rfl⟩
      | sec3 raw subtype total v3 => exact absurd htype.symm hne
      | sec1 raw type' v1 =>
        cases type' with
        | intCst => exact absurd htype.symm hne'
        | realCst =>
          rw [← htype] at hmem
          simp [DataStateVal.type] at hmem
      | unk raw =>
        rw [← htype] at hmem
        simp [DataStateVal.type] at hmem
    cases type with
    | constructor => exact copy_stores hd hs
    | intCst =>
      obtain ⟨raw, v1, hr1⟩ := dsvArgFind_int hr
      simp only [hr1]
      exact (lateRef_stores hp hl hr hr1 _ rfl).trans
        (intMet_iff hr1 fun raw _ => A.typeBits raw / BITS_PER_UNIT).symm
    | _ =>
      obtain ⟨raw, type', v2, rfl⟩ := hpointer (fun hno => by cases hno) fun hno => by cases hno
      simp only [hs]
      exact iff_of_true (taken_stores hd hs) trivial

/-! ## The cases that try one place after another -/

/-- The place that a copy to the left side is made to. -/
def copyDst (h : DsHeap) (src : DsvLoc) : List DsvLoc → Option DsvLoc
  | [] => none
  | dst :: arg =>
    match h.get? dst with
    | none => none
    | some _ => if copies h dst src then some dst else copyDst h src arg

def ToArgMet (h : DsHeap) (src : DsvLoc) (arg : List DsvLoc) : Prop :=
  ∀ dst, copyDst h src arg = some dst → CopyClear h dst src

section Dst

variable {h h' : DsHeap} {dst src : DsvLoc} {d s s' : DataStateVal}

/-- A value that is no constructor is copied over itself, or over what is apart. -/
theorem copyClear_of_kind (hd : h.get? dst = some d) (hs : h.get? src = some s)
    (hd' : d.kind = none) (hs' : s.kind = none) : CopyClear h dst src :=
  fun hover => Or.inl (eq_of_overlaps hd hs hd' hs' hover)

theorem kind_of_copies (hc : copies h dst src = true) (hs : h.get? src = some s) :
    ∃ d, h.get? dst = some d ∧ d.kind = s.kind := by
  unfold copies at hc
  cases hd : h.get? dst with
  | none =>
    rw [hd] at hc
    cases hc
  | some d =>
    simp only [hd, hs, decide_eq_true_eq] at hc
    refine ⟨d, rfl, ?_⟩
    obtain heq | ⟨hcopy, -⟩ := hc
    · subst heq
      rw [Option.some.inj (hd.symm.trans hs)]
    · rw [DataStateVal.copyable_eq, decide_eq_true_eq] at hcopy
      exact hcopy

theorem copies_congr (hk : SameKinds h h') (hs : h.get? src = some s) (hs' : h'.get? src = some s')
    (hkind : s'.kind = s.kind) (href : s'.refTarget = s.refTarget) (dst : DsvLoc) :
    copies h' dst src = copies h dst src := by
  have hdst := hk dst
  unfold copies
  rw [hs, hs']
  cases hd : h.get? dst with
  | none =>
    rw [hd] at hdst
    rw [Option.map_eq_none_iff.mp hdst]
  | some d =>
    rw [hd] at hdst
    obtain ⟨d', hd', hkind'⟩ := Option.map_eq_some_iff.mp hdst
    rw [hd']
    simp only [DataStateVal.copyable_eq, hkind, hkind', href]

theorem copyDst_congr (hk : SameKinds h h') (hs : h.get? src = some s)
    (hs' : h'.get? src = some s') (hkind : s'.kind = s.kind) (href : s'.refTarget = s.refTarget)
    (arg : List DsvLoc) : copyDst h' src arg = copyDst h src arg := by
  induction arg with
  | nil => rfl
  | cons dst arg ih =>
    have hdst := hk dst
    unfold copyDst
    rw [copies_congr hk hs hs' hkind href, ih]
    cases hd : h.get? dst with
    | none =>
      rw [hd] at hdst
      rw [Option.map_eq_none_iff.mp hdst]
    | some d =>
      rw [hd] at hdst
      obtain ⟨d', hd', -⟩ := Option.map_eq_some_iff.mp hdst
      rw [hd']

theorem copies_of_copyDst {arg : List DsvLoc} (hdst : copyDst h src arg = some dst) :
    copies h dst src = true := by
  induction arg with
  | nil => cases hdst
  | cons dst' arg ih =>
    unfold copyDst at hdst
    split at hdst
    · cases hdst
    · split at hdst
      · rename_i hc
        cases hdst
        exact hc
      · exact ih hdst

theorem toArgMet_of_kind (hs : h.get? src = some s) (hkind : s.kind = none) (arg : List DsvLoc) :
    ToArgMet h src arg := by
  intro dst hdst
  obtain ⟨d, hd, hdkind⟩ := kind_of_copies (copies_of_copyDst hdst) hs
  exact copyClear_of_kind hd hs (hdkind.trans hkind) hkind

/-- A copy that fails leaves the kinds and the other values. -/
theorem dsvCopyVal_keeps (hd : h.get? dst = some d) (hs : h.get? src = some s)
    (hc : copies h dst src = false) :
    ∃ h', dsvCopyVal h dst src = some (h', true) ∧ SameKinds h h' ∧ h'.get? src = some s ∧
      (s.kind ≠ none → h' = h) := by
  obtain ⟨h', hfail, rfl | ⟨hkind, htype, hne, rfl⟩⟩ := dsvCopyVal_fails hd hs hc
  · exact ⟨h', hfail, fun _ => rfl, hs, fun _ => rfl⟩
  · have hskind : s.kind = none :=
      DataStateVal.kind_of_type (by rw [htype]; exact DsvType.noConfusion)
    exact ⟨_, hfail, sameKinds_set hd hkind rfl, get?_set_ne hd hs hkind hskind hne _,
      fun hno => absurd hskind hno⟩

/-- A copy to the left side goes to the first place that it may go to. -/
theorem copyToArg_stores (P : DataStateVal → Prop) (hs : h.get? src = some s) (hP : P s)
    (huniq : s.kind ≠ none → ∀ w, P w → w = s) (arg : List DsvLoc) :
    Stores (dsvCopyToArg h src arg) ((copyDst h src arg).map fun dst => (dst, P)) ↔
      ToArgMet h src arg := by
  unfold ToArgMet
  induction arg generalizing h with
  | nil => exact iff_of_true (stores_err h _) fun _ hno => by cases hno
  | cons dst arg ih =>
    unfold dsvCopyToArg copyDst
    cases hd : h.get? dst with
    | none => exact iff_of_true trivial fun _ hno => by cases hno
    | some d =>
      dsimp only
      cases hc : copies h dst src with
      | true =>
        rw [if_pos rfl, Option.map_some]
        have hfound : (∀ dst', some dst = some dst' → CopyClear h dst' src) ↔ CopyClear h dst src :=
          ⟨fun hall => hall dst rfl, fun hone dst' heq => by cases heq; exact hone⟩
        have hunclear : ¬ CopyClear h dst src → ∀ w, P w → w = s := by
          intro hno
          refine huniq fun hkind => hno ?_
          obtain ⟨d', hd', hdkind⟩ := kind_of_copies hc hs
          exact copyClear_of_kind hd' hs (hdkind.trans hkind) hkind
        rw [hfound, ← copied_stores P hs hc hP hunclear]
        obtain ⟨hnone, -⟩ | ⟨h', hok, -⟩ := dsvCopyVal_cases hs hc
        · rw [hnone]
          rfl
        · rw [hok]
          rfl
      | false =>
        obtain ⟨h', hfail, hk, hs', hsame⟩ := dsvCopyVal_keeps hd hs hc
        rw [hfail, if_neg Bool.false_ne_true]
        dsimp only
        rw [← copyDst_congr hk hs hs' rfl rfl arg]
        refine (ih hs').trans ?_
        by_cases hkind : s.kind = none
        · exact iff_of_true (toArgMet_of_kind hs' hkind arg)
            (copyDst_congr hk hs hs' rfl rfl arg ▸ toArgMet_of_kind hs hkind arg)
        · rw [hsame hkind]

end Dst

section ToArg

variable (T) (st : AssignStmt) (a : AssignArgs) (h : DsHeap)

def bitFieldRefMeans : Meaning :=
  (dsvArgFind h a.rarg1 .intCst).bind fun r1 => (copyDst h r1 a.larg).bind fun dst =>
    (h.get? r1).map fun s => (dst, SameValue T s)

/-- An address; of an array for a pointer it is that of an element. -/
def addrExprMeans : Meaning :=
  (dsvArgFind h a.rarg1 .addr).bind fun r1 =>
    match st.arrayToPointer with
    | none => (copyDst h (dsVal st.rhs1) a.larg).map fun dst => (dst, fun w => w = h st.rhs1)
    | some bits =>
      match h.get? r1 with
      | some (.sec2 raw type ⟨some ds, offset, _⟩) =>
        (copyDst h r1 a.larg).map fun dst =>
          (dst, fun w => w = .sec2 raw type ⟨some ds, offset, u32 bits⟩)
      | _ => none

def AddrExprMet : Prop :=
  ∀ r1, dsvArgFind h a.rarg1 .addr = some r1 → st.arrayToPointer = none →
    ToArgMet h (dsVal st.rhs1) a.larg

/-- The constructor that is copied: the data state's own value, or the one that it stands for. -/
def constructorSrc : Option DsvLoc :=
  if (h st.rhs1).type = .constructor ∧ (h st.rhs1).isUnset = false then some (dsVal st.rhs1)
  else dsvArgFind h a.rarg1 .constructor

def constructorMeans : Meaning :=
  (constructorSrc st a h).bind fun src => (copyDst h src a.larg).bind fun dst =>
    (h.get? src).map fun s => (dst, fun w => w = s)

/-- The constructor has elements. -/
def ConstructorMet : Prop :=
  ∀ src dst, constructorSrc st a h = some src → copyDst h src a.larg = some dst →
    CopyClear h dst src ∧ (h.get? src).map DataStateVal.isUnset ≠ some true

end ToArg

/-- The number that is left is the one that was there. -/
theorem IntOperand.sameValue {x : Int} {raw : Nat} {v1 : List Nat}
    (hr : IntOperand A T h t x raw v1) :
    SameValue T (.sec1 raw .intCst v1) (extendVal A (.sec1 raw .intCst v1)) := by
  refine ⟨extendBytes (A.ext raw) v1, rfl, length_extendBytes .., ?_⟩
  have hx : (T.node raw).value v1 = x := by
    have hvalue := hr.value
    rw [intAt_int hr.get] at hvalue
    exact Option.some.inj hvalue
  have hpow : (256 : Int) ^ v1.length = 2 ^ (8 * v1.length) := by rw [pow_mul]; rfl
  unfold IntType.value bytesInt at hx ⊢
  rw [length_extendBytes, bytesNat_extend, hr.read, hpow, wrap_emod _ (Nat.min_le_right ..), ← hx]
  exact wrap_wrap ..

theorem caseBitFieldRef_stores {a : AssignArgs} (hp : Plain A T a h) :
    Stores (caseBitFieldRef A a h) (bitFieldRefMeans T a h) := by
  unfold caseBitFieldRef bitFieldRefMeans
  cases h1 : dsvArgFind h a.rarg1 .intCst with
  | none => exact stores_err h _
  | some r1 =>
    obtain ⟨x, raw, v1, hr⟩ := intOperand_first hp h1
    have hr' : (dsvExtend A h r1).get? r1 = some (extendVal A (.sec1 raw .intCst v1)) :=
      dsvExtend_get hr.get
    have hkinds : SameKinds h (dsvExtend A h r1) := by
      rw [dsvExtend_eq hr.get]
      exact sameKinds_set hr.get rfl rfl
    have hstores := (copyToArg_stores _ hr' hr.sameValue (fun hno => absurd rfl hno) a.larg).mpr
      (toArgMet_of_kind hr' rfl a.larg)
    rw [copyDst_congr hkinds hr.get hr' rfl rfl] at hstores
    rw [Option.bind_some, hr.get]
    dsimp only
    cases hdst : copyDst h r1 a.larg with
    | none => trivial
    | some dst =>
      rw [hdst] at hstores
      exact hstores

theorem caseAddrExpr_stores (st : AssignStmt) (a : AssignArgs) (h : DsHeap) :
    Stores (caseAddrExpr st a h) (addrExprMeans st a h) ↔ AddrExprMet st a h := by
  unfold caseAddrExpr addrExprMeans AddrExprMet
  cases h1 : dsvArgFind h a.rarg1 .addr with
  | none => exact iff_of_true (stores_err h _) fun _ hno => by cases hno
  | some r1 =>
    rw [Option.bind_some]
    dsimp only
    cases hbits : st.arrayToPointer with
    | none =>
      refine (copyToArg_stores (fun w => w = h st.rhs1) (get?_dsVal h rfl) rfl
        (fun _ _ hw => hw) a.larg).trans ?_
      exact ⟨fun hmet _ _ _ => hmet, fun hall => hall r1 rfl rfl⟩
    | some bits =>
      refine iff_of_true ?_ fun _ _ hno => by cases hno
      obtain ⟨v, hv, htype⟩ := dsvArgFind_spec h1
      obtain ⟨raw, ⟨ds, offset, bits'⟩, rfl⟩ := eq_addr htype
      dsimp only
      rw [hv]
      cases ds with
      | none => trivial
      | some ds =>
        dsimp only
        split
        · exact stores_err h _
        · have hr' := get?_set hv (.sec2 raw .addr ⟨some ds, offset, u32 bits⟩)
          have hkinds : SameKinds h (h.set r1 (.sec2 raw .addr ⟨some ds, offset, u32 bits⟩)) :=
            sameKinds_set hv rfl rfl
          have hstores := (copyToArg_stores (fun w => w = .sec2 raw .addr ⟨some ds, offset,
            u32 bits⟩) hr' rfl (fun _ _ hw => hw) a.larg).mpr (toArgMet_of_kind hr' rfl a.larg)
          rw [copyDst_congr hkinds hv hr' rfl rfl] at hstores
          exact hstores

theorem caseConstructor_stores (st : AssignStmt) (a : AssignArgs) (h : DsHeap) :
    Stores (caseConstructor st a h) (constructorMeans st a h) ↔ ConstructorMet st a h := by
  have hset : ∀ src s, h.get? src = some s → s.isUnset = false →
      constructorSrc st a h = some src →
      (Stores (dsvCopyToArg h src a.larg) (constructorMeans st a h) ↔ ConstructorMet st a h) := by
    intro src s hs hset hsrc
    unfold constructorMeans ConstructorMet
    rw [hsrc, Option.bind_some, hs]
    have hvalue : ((copyDst h src a.larg).bind fun dst =>
          (some s).map fun s => (dst, fun w => w = s)) =
        (copyDst h src a.larg).map fun dst => (dst, fun w => w = s) := by
      cases copyDst h src a.larg with
      | none => rfl
      | some dst => rfl
    rw [hvalue, copyToArg_stores (fun w => w = s) hs rfl fun _ _ hw => hw]
    constructor
    · rintro hmet src' dst hsrc' hdst
      cases hsrc'
      refine ⟨hmet dst hdst, fun hno => ?_⟩
      rw [hs, Option.map_some, hset] at hno
      cases hno
    · exact fun hall dst hdst => (hall src dst rfl hdst).1
  unfold caseConstructor
  rw [get?_dsVal h rfl]
  dsimp only [dsVal]
  by_cases hown : (h st.rhs1).type = .constructor ∧ (h st.rhs1).isUnset = false
  · rw [if_pos hown]
    refine hset (dsVal st.rhs1) _ (get?_dsVal h rfl) hown.2 ?_
    unfold constructorSrc
    rw [if_pos hown]
  · rw [if_neg hown]
    have hsrc : constructorSrc st a h = dsvArgFind h a.rarg1 .constructor := by
      unfold constructorSrc
      rw [if_neg hown]
    cases hfind : dsvArgFind h a.rarg1 .constructor with
    | none =>
      unfold constructorMeans ConstructorMet
      rw [hsrc, hfind]
      exact iff_of_true (stores_err h _) fun _ _ hno => by cases hno
    | some r1 =>
      obtain ⟨s, hs, -⟩ := dsvArgFind_spec hfind
      dsimp only
      rw [hs]
      dsimp only
      cases hunset : s.isUnset with
      | false => exact hset r1 s hs hunset (hsrc.trans hfind)
      | true =>
        -- nothing is stored, and the left side stays as it was
        unfold constructorMeans ConstructorMet
        rw [hsrc, hfind, Option.bind_some, if_pos rfl, hs]
        cases hdst : copyDst h r1 a.larg with
        | none =>
          refine iff_of_true trivial fun src dst hsrc' hdst' => ?_
          cases hsrc'
          cases hdst.symm.trans hdst'
        | some dst =>
          refine iff_of_false not_stores_nothing fun hall => ?_
          refine (hall r1 dst rfl hdst).2 ?_
          rw [hs, Option.map_some, hunset]

end Srcinv.Analysis
