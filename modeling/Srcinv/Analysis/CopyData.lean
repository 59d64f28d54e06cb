import Srcinv.Analysis.Compute
import Srcinv.Lib.Places

/-!
# Copying values (`dsv_copy_data`, `include/si_ds.h`)

`__dsv_copy_data` frees the destination and reads the source after that.  What the destination
pointed at may then be gone, and the source with it.

* `Stays` — a data state that something else keeps while a value is freed.
* `freed_stays_iff` — exactly those survive.
* `dsvCopyData_exact` — when a copy does **all or nothing**: neither value is a part of the other,
  both stay, and the source is no reference to the destination.
-/

namespace Srcinv.Analysis

open Srcinv.Lib

/-! ## What survives -/

/-- **The data state stays when the value at `t` is freed**: it is among some that are held, in a
    list, or pointed at by one of them from elsewhere. -/
def Stays (roots : Nat → Nat) (h : RwHeap) (t : DsvLoc) (ds : Nat) : Prop :=
  ∃ K : Set Nat, ds ∈ K ∧ ∀ k ∈ K, 0 < roots k ∨ ∃ u raw type v2, u.ds ∈ K ∧ ¬ u.Overlaps t ∧
    h.get? u = some (.sec2 raw type v2) ∧ v2.ds = some k

mutual
/-- What a value points at, one of its parts does. -/
theorem DataStateVal.mem_refs {d : Nat} : ∀ {v : DataStateVal}, d ∈ v.refs →
    ∃ path raw type v2, v.get? path = some (.sec2 raw type v2) ∧ v2.ds = some d
  | .unk _, h => by cases h
  | .sec1 .., h => by cases h
  | .sec2 raw type v2, h => ⟨[], raw, type, v2, rfl, Option.mem_toList.mp h⟩
  | .sec3 raw subtype total v3, h => by
    obtain ⟨i, e, path, raw', type, v2, he, hget, hd⟩ := DataStateVal.mem_refsElems h
    refine ⟨i :: path, raw', type, v2, ?_, hd⟩
    rw [DataStateVal.get?, he]
    exact hget

theorem DataStateVal.mem_refsElems {d : Nat} : ∀ {v3 : List (DataStateVal1 DataStateVal)},
    d ∈ DataStateVal.refsElems v3 →
      ∃ (i : Nat) (e : DataStateVal1 DataStateVal) (path : List Nat) (raw : Nat) (type : Sec2)
        (v2 : DataStateValRef), v3[i]? = some e ∧
          e.val.get? path = some (.sec2 raw type v2) ∧ v2.ds = some d
  | [], h => by cases h
  | ⟨offset, bits, val⟩ :: v3, h => by
    rcases List.mem_append.mp h with h | h
    · obtain ⟨path, raw, type, v2, hget, hd⟩ := DataStateVal.mem_refs h
      exact ⟨0, ⟨offset, bits, val⟩, path, raw, type, v2, rfl, hget, hd⟩
    · obtain ⟨i, e, path, raw, type, v2, he, hget, hd⟩ := DataStateVal.mem_refsElems h
      exact ⟨i + 1, e, path, raw, type, v2, he, hget, hd⟩
end

section Copy

variable {S : Finset Nat} {roots : Nat → Nat} {h h' : RwHeap} {fuel : Nat} {t u : DsvLoc}
  {v w : DataStateVal}

/-- Neither in nor around a place that was freed is a pointer. -/
theorem apart_of_pointer {raw raw' : Nat} {type : Sec2} {v2 : DataStateValRef}
    (ht : h.get? t = some (.unk raw)) (hu : h.get? u = some (.sec2 raw' type v2)) :
    ¬ u.Overlaps t := by
  rintro ⟨hds, hpath | ⟨rest, hrest⟩⟩
  · obtain ⟨rest, hrest⟩ := hpath
    obtain ⟨c, hc, hval⟩ := RwHeap.get?_eq_some hu
    rw [RwHeap.get?, ← hds, hc, Option.bind_some, ← hrest, DataStateVal.get?_append, hval,
      Option.bind_some] at ht
    cases rest <;> cases ht
  · have hin : u.ds = t.ds ∧ t.path <+: u.path := ⟨hds, rest, hrest⟩
    cases (below_unk ht hu hin).2

/-- What is pointed at is pointed at from somewhere. -/
theorem exists_pointer {k : Nat} (hpos : 0 < pointers DsRw.refs S h k) : ∃ u raw type v2,
    (h u.ds).isSome ∧ h.get? u = some (.sec2 raw type v2) ∧ v2.ds = some k := by
  obtain ⟨j, -, hj⟩ := Finset.exists_ne_zero_of_sum_ne_zero (Nat.ne_of_gt hpos)
  have hmem := List.count_pos_iff.mp (Nat.pos_of_ne_zero hj)
  cases hc : h j with
  | none =>
    rw [hc] at hmem
    cases hmem
  | some c =>
    rw [hc] at hmem
    obtain ⟨path, raw, type, v2, hget, hds⟩ := DataStateVal.mem_refs hmem
    refine ⟨⟨j, path⟩, raw, type, v2, by rw [hc]; rfl, ?_, hds⟩
    rw [RwHeap.get?, hc]
    exact hget

/-- **What stays when a value is freed survives it, and nothing else does.** -/
theorem freed_stays_iff (hb : DsBalanced S h roots []) (hfuel : S.card ≤ fuel)
    (hv : h.get? t = some v)
    (hx : v.refs.foldlM (rcDrop DsRw.refs fuel) (h.set t (.unk v.raw)) = some h') {ds : Nat} :
    (h' ds).isSome ↔ Stays roots h t ds := by
  obtain ⟨h₁, hx₁, hf, hget⟩ := freeRefs_spec hb hfuel hv
  cases hx.symm.trans hx₁
  constructor
  · intro hds
    refine ⟨{k | (h' k).isSome}, hds, fun k hk => ?_⟩
    have hpos := (hf.balanced.there k).mp hk
    unfold owners at hpos
    rw [List.count_nil] at hpos
    by_cases hroot : 0 < roots k
    · exact Or.inl hroot
    · have hpointed : 0 < pointers DsRw.refs S h' k := by omega
      obtain ⟨u, raw, type, v2, hthere, hu, hv2⟩ := exists_pointer hpointed
      have hapart : ¬ u.Overlaps t := fun hover =>
        apart_of_pointer (hget (hover.1 ▸ hthere)) hu hover
      exact Or.inr ⟨u, raw, type, v2, hthere, hapart, (hf.apart u hapart hthere) ▸ hu, hv2⟩
  · rintro ⟨K, hds, hK⟩
    have hb₁ : DsBalanced S (h.set t (.unk v.raw)) roots (v.refs ++ []) := by
      refine balanced_set hb hv fun d => ?_
      rw [List.append_nil, DataStateVal.refs]
      exact Nat.add_comm ..
    have hcount : cellCount S (h.set t (.unk v.raw)) ≤ fuel :=
      (Finset.card_filter_le ..).trans hfuel
    have hprop : Propped DsRw.refs (h.set t (.unk v.raw)) roots K := by
      intro k hk
      rcases hK k hk with hroot | ⟨u, raw, type, v2, hu, hapart, hval, hv2⟩
      · refine ⟨(hb₁.there k).mpr ?_, Or.inl hroot⟩
        unfold owners
        omega
      · rw [← RwHeap.get?_set_apart hapart (.unk v.raw)] at hval
        have hmem : k ∈ (DataStateVal.sec2 raw type v2).refs := by
          rw [DataStateVal.refs, hv2]
          exact List.mem_singleton_self k
        obtain ⟨c, hc, hpart⟩ := RwHeap.get?_eq_some hval
        exact ⟨pointed_there hb₁ hval hmem,
          Or.inr ⟨u.ds, hu, c, hc, DataStateVal.refs_get? hpart hmem⟩⟩
    exact (hb₁.dropAll_propped hcount hprop hx ds hds).1

theorem RwHeap.isSome_of_get? (hu : h.get? u = some w) : (h u.ds).isSome := by
  obtain ⟨c, hc, -⟩ := RwHeap.get?_eq_some hu
  rw [hc]
  rfl

/-- A value that can be freed: its data state stays. -/
theorem freeData_iff (hb : DsBalanced S h roots []) (hfuel : S.card ≤ fuel)
    (hv : h.get? t = some v) : (∃ h', h.dsvFreeData fuel t = some h') ↔ Stays roots h t t.ds := by
  obtain ⟨h₁, hx, -, -⟩ := freeRefs_spec hb hfuel hv
  rw [← freed_stays_iff hb hfuel hv hx]
  unfold RwHeap.dsvFreeData
  simp only [hv, hx, Option.bind_eq_bind, Option.bind_some]
  constructor
  · rintro ⟨h', hfree⟩
    by_contra hno
    rw [if_neg hno] at hfree
    cases hfree
  · intro hthere
    exact ⟨h₁, if_pos hthere⟩

/-- What freeing a value leaves. -/
theorem freeData_spec (hb : DsBalanced S h roots []) (hfuel : S.card ≤ fuel)
    (hv : h.get? t = some v) (hx : h.dsvFreeData fuel t = some h') :
    Freed S roots h t h' ∧ RwHeap.get? h' t = some (.unk v.raw) ∧
      ∀ ds, (h' ds).isSome ↔ Stays roots h t ds := by
  obtain ⟨h₁, hx₁, hf, hget⟩ := freeRefs_spec hb hfuel hv
  unfold RwHeap.dsvFreeData at hx
  simp only [hv, hx₁, Option.bind_eq_bind, Option.bind_some] at hx
  by_cases hthere : (h₁ t.ds).isSome = true
  · rw [if_pos hthere] at hx
    cases hx
    exact ⟨hf, hget hthere, fun ds => freed_stays_iff hb hfuel hv hx₁⟩
  · rw [if_neg hthere] at hx
    cases hx

/-! ## What is copied -/

/-- A new reference or address is pointed at what the source points at. -/
theorem holdSetv_apart {raw : Nat} {type : Sec2} {v2 : DataStateValRef}
    (ht : h.get? t = some (.sec2 raw type v2)) {ds : Option Nat}
    (hds : ∀ d, ds = some d → (h d).isSome) (hself : ¬ (type = .ref ∧ ds.map dsVal = some t))
    (offset : Int) (bits : Nat) :
    ∃ h', h.dsVrefHoldSetv t ds offset bits = some (h', false) ∧
      RwHeap.get? h' t = some (.sec2 raw type ⟨ds, offset, bits⟩) ∧
        ∀ u, ¬ u.Overlaps t → RwHeap.get? h' u = h.get? u := by
  set h₁ := h.set t (.sec2 raw type ⟨ds, offset, bits⟩) with hh₁
  obtain ⟨h', hx, hsame⟩ : ∃ h', RwHeap.dsHold h₁ ds = some h' ∧ SameVals h₁ h' := by
    cases ds with
    | none => exact ⟨h₁, rfl, .refl h₁⟩
    | some d =>
      have hd : (h₁ d).isSome := by
        rw [hh₁, RwHeap.isSome_set]
        exact hds d rfl
      obtain ⟨c, hc⟩ := Option.isSome_iff_exists.mp hd
      refine ⟨_, ?_, SameVals.update hc (c.refcnt + 1)⟩
      rw [RwHeap.dsHold, rcHold, hc]
      rfl
  refine ⟨h', ?_, ?_, fun u hu => ?_⟩
  · unfold RwHeap.dsVrefHoldSetv
    simp only [ht, hself, if_false]
    rw [hx]
    rfl
  · rw [RwHeap.get?_of_same hsame]
    exact RwHeap.get?_set ht _
  · rw [RwHeap.get?_of_same hsame]
    exact RwHeap.get?_set_apart hu _

/-- **The copy of a value that is apart from the destination.** -/
theorem copyFreed_apart (hb : DsBalanced S h roots []) {r : Nat} (ht : h.get? t = some (.unk r))
    (hu : h.get? u = some v) (hapart : ¬ u.Overlaps t) (hself : v.refTarget.map dsVal ≠ some t) :
    ∃ h', h.copyFreed t u = some (h', false) ∧ RwHeap.get? h' t = some v ∧
      RwHeap.get? h' u = some v := by
  unfold RwHeap.copyFreed
  simp only [ht, hu, Option.bind_eq_bind, Option.bind_some]
  cases v with
  | sec2 raw type v2 =>
    have hself' : ¬ (type = .ref ∧ v2.ds.map dsVal = some t) := by
      rintro ⟨rfl, htarget⟩
      exact hself htarget
    have htarget : ∀ d, v2.ds = some d → (h.set t (.sec2 r type ⟨none, 0, 0⟩) d).isSome := by
      intro d hv2
      rw [RwHeap.isSome_set]
      refine pointed_there hb hu ?_
      rw [DataStateVal.refs, hv2]
      exact List.mem_singleton_self d
    obtain ⟨h₁, hx, hget, hrest⟩ := holdSetv_apart (RwHeap.get?_set ht _) htarget hself' v2.offset
      v2.bits
    have hraw : (DataStateVal.unk r).raw = r := rfl
    simp only [hraw, hx, Option.bind_some, Bool.false_eq_true, if_false]
    refine ⟨_, rfl, RwHeap.get?_set hget _, ?_⟩
    rw [RwHeap.get?_set_apart hapart, hrest u hapart, RwHeap.get?_set_apart hapart]
    exact hu
  | sec3 raw subtype total v3 =>
    have hout : ¬ (u.ds = t.ds ∧ t.path <+: u.path) := fun hin => hapart ⟨hin.1, Or.inr hin.2⟩
    have hb₁ : DsBalanced S (h.set t (.sec3 r subtype total [])) roots [] :=
      balanced_set hb ht fun d => rfl
    have hu₁ : (h.set t (.sec3 r subtype total [])).get? u = some (.sec3 raw subtype total v3) := by
      rw [RwHeap.get?_set_apart hapart]
      exact hu
    obtain ⟨h₁, w3, v3₁, hx, -, ht₁, hu₂, hexact⟩ := copyElems_spec (List.range v3.length) hb₁
      (RwHeap.get?_set ht _) hu₁ hout fun i hi => List.mem_range.mp hi
    obtain ⟨rfl, rfl⟩ := hexact hapart
    rw [List.nil_append, filterMap_range] at ht₁
    have hraw : (DataStateVal.unk r).raw = r := rfl
    simp only [hraw, hx, Option.bind_some, ht₁]
    refine ⟨_, rfl, RwHeap.get?_set ht₁ _, ?_⟩
    rw [RwHeap.get?_set_apart hapart]
    exact hu₂
  | _ =>
    refine ⟨_, rfl, ?_, ?_⟩
    · rw [RwHeap.get?_set ht, DataStateVal.copy_eq]
    · rw [RwHeap.get?_set_apart hapart]
      exact hu

/-- A reference to the destination is refused, when the destination is a reference already. -/
theorem copyFreed_self {r : Nat} (ht : h.get? t = some (.unk r)) (hu : h.get? u = some v)
    (hself : v.refTarget.map dsVal = some t) :
    h.copyFreed t u = some (h.set t (.sec2 r .ref ⟨none, 0, 0⟩), true) := by
  cases v with
  | sec2 raw type v2 =>
    cases type with
    | addr => cases hself
    | ref =>
      have htarget : v2.ds.map dsVal = some t := hself
      have hraw : (DataStateVal.unk r).raw = r := rfl
      unfold RwHeap.copyFreed RwHeap.dsVrefHoldSetv
      simp only [ht, hu, hraw, Option.bind_eq_bind, Option.bind_some, RwHeap.get?_set ht, htarget,
        and_self, if_true]
  | _ => cases hself

/-- The source is read. -/
theorem copyFreed_reads {r : RwHeap × Bool} (hx : h.copyFreed t u = some r) :
    ∃ w, h.get? u = some w := by
  unfold RwHeap.copyFreed at hx
  obtain ⟨d, -, hx⟩ := Option.bind_eq_some_iff.mp hx
  obtain ⟨w, hw, -⟩ := Option.bind_eq_some_iff.mp hx
  exact ⟨w, hw⟩

/-- A constructor is not refused. -/
theorem copyFreed_true (hx : h.copyFreed t u = some (h', true)) :
    ∃ raw type v2, h.get? u = some (.sec2 raw type v2) := by
  unfold RwHeap.copyFreed at hx
  obtain ⟨d, -, hx⟩ := Option.bind_eq_some_iff.mp hx
  obtain ⟨v, hv, hx⟩ := Option.bind_eq_some_iff.mp hx
  cases v with
  | sec2 raw type v2 => exact ⟨raw, type, v2, hv⟩
  | sec3 raw subtype total v3 =>
    obtain ⟨h₁, -, hx⟩ := Option.bind_eq_some_iff.mp hx
    split at hx
    · cases hx
    · cases hx
  | _ => cases hx

/-! ## All or nothing -/

/-- **The destination is what the source was, with children of its own, and the source is as it
    was.**  What is written to a child of the copy does not get into the source. -/
structure Copied (h h' : RwHeap) (dst src : DsvLoc) : Prop where
  same : h'.get? dst = h.get? src
  source : h'.get? src = h.get? src
  own : dst ≠ src → ∀ path w, path ≠ [] →
    (h'.set ⟨dst.ds, dst.path ++ path⟩ w).get? src = h'.get? src

/-- **`dsv_copy_data` comes back without using freed memory, and did all or nothing.** -/
def CopyRight (fuel : Nat) (h : RwHeap) (dst src : DsvLoc) : Prop :=
  ∃ h' err, h.dsvCopyData fuel dst src = some (h', err) ∧ (err = false → Copied h h' dst src) ∧
    (err = true → RwHeap.get? h' dst = h.get? dst)

/-- **When it does**, with the values `d` and `s`. -/
def CopyFits (roots : Nat → Nat) (h : RwHeap) (dst src : DsvLoc) (d s : DataStateVal) : Prop :=
  dst = src ∨ d.copyable s = false ∨
    ¬ src.Overlaps dst ∧ Stays roots h dst dst.ds ∧ Stays roots h dst src.ds ∧
      (s.refTarget.map dsVal = some dst → d = .sec2 d.raw .ref ⟨none, 0, 0⟩)

/-- A value is no part of itself but the whole. -/
theorem DataStateVal.sizeOf_get? {path : List Nat} {v w : DataStateVal} (h : v.get? path = some w) :
    sizeOf w + path.length ≤ sizeOf v := by
  induction path generalizing v with
  | nil =>
    cases h
    exact Nat.le_refl _
  | cons i path ih =>
    cases v with
    | sec3 raw subtype total v3 =>
      obtain ⟨e, he, hget⟩ := Option.bind_eq_some_iff.mp h
      have hrec := ih hget
      have hmem := List.sizeOf_lt_of_mem (List.mem_of_getElem? he)
      obtain ⟨offset, bits, val⟩ := e
      simp only [DataStateVal1.mk.sizeOf_spec] at hmem
      simp only [DataStateVal.sec3.sizeOf_spec, List.length_cons] at hrec ⊢
      omega
    | _ => cases h

/-- The source in or around the destination: the copy goes wrong. -/
theorem not_right_of_overlaps (hb : DsBalanced S h roots []) (hfuel : S.card ≤ fuel)
    (ht : h.get? t = some v) (hu : h.get? u = some w) (hne : t ≠ u) (hcopy : v.copyable w = true)
    (hover : u.Overlaps t) : ¬ CopyRight fuel h t u := by
  rintro ⟨h', err, hx, hok, -⟩
  unfold RwHeap.dsvCopyData at hx
  simp only [hne, ht, hu, hcopy, not_true, if_false] at hx
  obtain ⟨h₁, hfree, hx⟩ := Option.bind_eq_some_iff.mp hx
  obtain ⟨-, ht₁, -⟩ := freeData_spec hb hfuel ht hfree
  obtain ⟨w₁, hu₁⟩ := copyFreed_reads hx
  obtain ⟨hds, ⟨rest, hrest⟩ | hpath⟩ := hover
  · have hlen : rest ≠ [] := by
      rintro rfl
      rw [List.append_nil] at hrest
      obtain ⟨ds, path⟩ := t
      obtain ⟨ds', path'⟩ := u
      exact hne (by rw [show ds = ds' from hds.symm, show path = path' from hrest.symm])
    have hpart : ∀ g : RwHeap, g.get? t = (g.get? u).bind fun x => x.get? rest := by
      intro g
      rw [RwHeap.get?, RwHeap.get?, ← hds, ← hrest, Option.bind_assoc]
      exact Option.bind_congr fun c _ => DataStateVal.get?_append ..
    cases err with
    | true =>
      -- the source has the destination in it, and is no pointer
      obtain ⟨raw, type, v2, hptr⟩ := copyFreed_true hx
      exact apart_of_pointer ht₁ hptr ⟨hds, Or.inl ⟨rest, hrest⟩⟩
    | false =>
      obtain ⟨hsame, hsource, -⟩ := hok rfl
      rw [hpart h', hsource, hu, Option.bind_some] at hsame
      have hsize := DataStateVal.sizeOf_get? hsame
      have hpos := List.length_pos_iff.mpr hlen
      omega
  · exact hne (below_unk ht₁ hu₁ ⟨hds, hpath⟩).1

/-- **A copy does all or nothing exactly where nothing is to be copied, or neither value is a part
of the other, both stay when the destination is freed, and the source is no reference to the
destination, unless that is a reference to nothing already.** -/
theorem dsvCopyData_exact (hb : DsBalanced S h roots []) (hfuel : S.card ≤ fuel)
    (ht : h.get? t = some v) (hu : h.get? u = some w) :
    CopyRight fuel h t u ↔ CopyFits roots h t u v w := by
  by_cases hne : t = u
  · refine ⟨fun _ => Or.inl hne, fun _ => ⟨h, false, if_pos hne, fun _ => ?_, fun h => by cases h⟩⟩
    exact ⟨by rw [hne], rfl, fun hno => absurd hne hno⟩
  cases hcopy : v.copyable w with
  | false =>
    refine ⟨fun _ => Or.inr (Or.inl hcopy), fun _ => ⟨h, true, ?_, fun h => (by cases h),
      fun _ => rfl⟩⟩
    unfold RwHeap.dsvCopyData
    simp only [hne, ht, hu, hcopy, Bool.false_eq_true, not_false_iff, if_true, if_false]
  | true =>
    by_cases hover : u.Overlaps t
    · refine ⟨fun hr => absurd hr (not_right_of_overlaps hb hfuel ht hu hne hcopy hover), ?_⟩
      rintro (heq | hno | ⟨hapart, -⟩)
      · exact absurd heq hne
      · rw [hcopy] at hno
        cases hno
      · exact absurd hover hapart
    have hcall : h.dsvCopyData fuel t u = h.dsvCopyDataForce fuel t u := by
      unfold RwHeap.dsvCopyData
      simp only [hne, ht, hu, hcopy, not_true, if_false]
    have hown : ∀ (g : RwHeap) (path : List Nat) (x : DataStateVal), path ≠ [] →
        (g.set ⟨t.ds, t.path ++ path⟩ x).get? u = g.get? u := by
      intro g path x _
      refine RwHeap.get?_set_apart (t := ⟨t.ds, t.path ++ path⟩)
        (fun hpart => hover ⟨hpart.1, ?_⟩) x
      rcases hpart.2 with hpath | hpath
      · exact List.prefix_or_prefix_of_prefix hpath (List.prefix_append ..)
      · exact Or.inr ((List.prefix_append ..).trans hpath)
    constructor
    · rintro ⟨h', err, hx, -, hkeep⟩
      rw [hcall] at hx
      obtain ⟨h₁, hfree, hx⟩ := Option.bind_eq_some_iff.mp hx
      obtain ⟨hf, ht₁, hstays⟩ := freeData_spec hb hfuel ht hfree
      obtain ⟨w₁, hu₁⟩ := copyFreed_reads hx
      have hthere := RwHeap.isSome_of_get? hu₁
      rw [hf.apart u hover hthere, hu] at hu₁
      cases hu₁
      refine Or.inr (Or.inr ⟨hover, (hstays _).mp (RwHeap.isSome_of_get? ht₁),
        (hstays _).mp hthere, fun hself => ?_⟩)
      rw [copyFreed_self ht₁ ((hf.apart u hover hthere).trans hu) hself] at hx
      cases hx
      have hsame := hkeep rfl
      rw [RwHeap.get?_set ht₁, ht] at hsame
      exact (Option.some.inj hsame).symm
    · rintro (heq | hno | ⟨-, htop, hsrc, hself⟩)
      · exact absurd heq hne
      · rw [hcopy] at hno
        cases hno
      obtain ⟨h₁, hfree⟩ := (freeData_iff hb hfuel ht).mpr htop
      obtain ⟨hf, ht₁, hstays⟩ := freeData_spec hb hfuel ht hfree
      have hu₁ := (hf.apart u hover ((hstays _).mpr hsrc)).trans hu
      have hforce : ∀ {r}, RwHeap.copyFreed h₁ t u = some r → h.dsvCopyData fuel t u = some r := by
        intro r hx
        rw [hcall, RwHeap.dsvCopyDataForce, hfree]
        exact hx
      by_cases hto : w.refTarget.map dsVal = some t
      · refine ⟨_, true, hforce (copyFreed_self ht₁ hu₁ hto), fun h => (by cases h), fun _ => ?_⟩
        rw [RwHeap.get?_set ht₁, ht, hself hto]
        rfl
      · obtain ⟨h', hx, hdst, hsource⟩ := copyFreed_apart hf.balanced ht₁ hu₁ hover hto
        refine ⟨h', false, hforce hx, fun _ => ⟨?_, ?_, fun _ => hown h'⟩, fun h => by cases h⟩
        · rw [hdst, hu]
        · rw [hsource, hu]

end Copy

/-! ## Three data states -/

/-- The first data state is read through, and copied over the second. -/
theorem dsvCopyData_exact_second : CopyRight 3 rowHeap (dsVal 1) (dsVal 0) := by
  have hapart : ¬ (dsVal 0).Overlaps (dsVal 1) := by decide
  have hzero : 0 < (fun ds => if ds = 0 then 1 else 0 : Nat → Nat) 0 := Nat.one_pos
  refine (dsvCopyData_exact rowHeap_balanced (Nat.le_refl 3) rfl rfl).mpr
    (Or.inr (Or.inr ⟨hapart, ⟨{0, 1}, Or.inr rfl, ?_⟩, ⟨{0}, rfl, ?_⟩, fun hself => ?_⟩))
  · rintro k (rfl | rfl)
    · exact Or.inl hzero
    · exact Or.inr ⟨dsVal 0, 0, .addr, ⟨some 1, 128, 64⟩, Or.inl rfl, hapart, rfl, rfl⟩
  · rintro k rfl
    exact Or.inl hzero
  · cases hself

/-- An integer, a reference to it, and a record in a record. -/
def nestHeap : RwHeap
  | 0 => some ⟨2, dsInitBase 0 .vn, .sec1 0 .intCst [1]⟩
  | 1 => some ⟨1, dsInitBase 0 .vn, .sec2 0 .ref ⟨some 0, 0, 8⟩⟩
  | 2 => some ⟨1, dsInitBase 0 .vn, .sec3 0 false 8 [⟨0, 64, .sec3 0 false 8 [⟨0, 64, .unk 0⟩]⟩]⟩
  | _ => none

/-- All three are held. -/
theorem nestHeap_balanced :
    DsBalanced {0, 1, 2} nestHeap (fun ds => if ds < 3 then 1 else 0) [] := by
  refine ⟨fun ds hds => ?_, fun ds c hc => ?_, fun ds => ?_⟩
  · rcases three_cases ds with rfl | rfl | rfl | ⟨k, rfl⟩
    · decide
    · decide
    · decide
    · cases hds
  · rcases three_cases ds with rfl | rfl | rfl | ⟨k, rfl⟩
    · cases hc
      decide
    · cases hc
      decide
    · cases hc
      decide
    · cases hc
  · rcases three_cases ds with rfl | rfl | rfl | ⟨k, rfl⟩
    · decide
    · decide
    · decide
    · simp [owners, pointers, cellRefs, nestHeap, DsRw.refs, DataStateVal.refs,
        DataStateVal.refsElems]

/-- **`p = *p` reads what only `p` kept; a record in a record is read after the outer one was
freed; and an integer is lost when a reference to it is copied over it, which fails.** -/
theorem source_freed_destination_lost :
    DsBalanced {0, 1, 2} rowHeap (fun ds => if ds = 0 then 1 else 0) [] ∧
      DsBalanced {0, 1, 2} nestHeap (fun ds => if ds < 3 then 1 else 0) [] ∧
      ¬ CopyRight 3 rowHeap (dsVal 0) (dsVal 1) ∧ ¬ CopyRight 3 nestHeap (dsVal 2) ⟨2, [0]⟩ ∧
      ¬ CopyRight 3 nestHeap (dsVal 0) (dsVal 1) := by
  refine ⟨rowHeap_balanced, nestHeap_balanced, ?_, ?_, ?_⟩
  · rintro ⟨h', err, hx, -⟩
    have hnone : rowHeap.dsvCopyData 3 (dsVal 0) (dsVal 1) = none := rfl
    rw [hnone] at hx
    cases hx
  · rintro ⟨h', err, hx, -⟩
    have hnone : nestHeap.dsvCopyData 3 (dsVal 2) ⟨2, [0]⟩ = none := rfl
    rw [hnone] at hx
    cases hx
  · rintro ⟨h', err, hx, -, hkeep⟩
    have hrun : nestHeap.dsvCopyData 3 (dsVal 0) (dsVal 1) =
        some ((nestHeap.set (dsVal 0) (.unk 0)).set (dsVal 0) (.sec2 0 .ref ⟨none, 0, 0⟩), true) :=
      rfl
    rw [hrun] at hx
    cases hx
    cases hkeep rfl

end Srcinv.Analysis
