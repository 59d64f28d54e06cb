import Srcinv.Analysis.DsStore
import Srcinv.Lib.Run

/-!
# Counting the references to data states (`include/si_ds.h`)

* `CountsRight` — the counter of every data state that is there is the number of addresses and
  references that point at it, of the lists that it is in and of the holds of the callers; a data
  state is there exactly when this number is not 0, so that no value points at one that is gone.
* `Kept` — what the callers can reach while a value is overwritten: what they hold, what is in a
  list, and what a value that stays points at.
* `CopiesApart` — no value is copied from a part of what it overwrites.
* `counts_exact` — **the counters are right in every state of a run and no operation of it uses
  freed memory exactly if its copies are so**, when the callers only pass what they can reach.
-/

namespace Srcinv.Analysis

open Srcinv.Lib

/-- `Balanced`, of data states. -/
abbrev DsBalanced (S : Finset Nat) (h : RwHeap) (roots : Nat → Nat) (pending : List Nat) : Prop :=
  Balanced DsRw.refs S h roots pending

/-- **What the callers can still reach when the value at `t` is overwritten.** -/
inductive Kept (roots : Nat → Nat) (h : RwHeap) (t : DsvLoc) : Nat → Prop
  | owned {ds : Nat} : 0 < roots ds → Kept roots h t ds
  | pointed {u : DsvLoc} {raw : Nat} {type : Sec2} {v2 : DataStateValRef} {ds : Nat} :
      Kept roots h t u.ds → ¬ u.Overlaps t → h.get? u = some (.sec2 raw type v2) →
      v2.ds = some ds → Kept roots h t ds

/-! ## Values in place -/

namespace RwHeap

variable {h h' : RwHeap} {t u : DsvLoc} {v w : DataStateVal}

theorem get?_eq_some (hv : h.get? t = some v) :
    ∃ c, h t.ds = some c ∧ c.val.val.get? t.path = some v := Option.bind_eq_some_iff.mp hv

theorem set_eq {c : Counted DsRw} (hc : h t.ds = some c) (w : DataStateVal) :
    h.set t w = Function.update h t.ds
      (some { c with val := { c.val with val := c.val.val.set t.path w } }) := by
  unfold set
  rw [hc]

theorem isSome_set (h : RwHeap) (t : DsvLoc) (w : DataStateVal) (ds : Nat) :
    (h.set t w ds).isSome = (h ds).isSome := by
  cases hc : h t.ds with
  | none => simp only [set, hc]
  | some c =>
    rw [set_eq hc]
    by_cases hds : ds = t.ds
    · rw [hds, Function.update_self, hc]
      rfl
    · rw [Function.update_of_ne hds]

theorem get?_set (hv : h.get? t = some v) (w : DataStateVal) : (h.set t w).get? t = some w := by
  obtain ⟨c, hc, hval⟩ := get?_eq_some hv
  rw [set_eq hc, get?, Function.update_self]
  exact DataStateVal.get?_set hval w

/-- What does not overlap the place stays. -/
theorem get?_set_apart (hu : ¬ u.Overlaps t) (w : DataStateVal) :
    (h.set t w).get? u = h.get? u := by
  cases hc : h t.ds with
  | none => simp only [set, hc]
  | some c =>
    rw [set_eq hc, get?, get?]
    by_cases hds : u.ds = t.ds
    · rw [hds, Function.update_self, hc]
      refine DataStateVal.get?_set_of_apart (fun hp => hu ⟨hds, Or.inr hp⟩) (fun hp => ?_) _ w
      exact hu ⟨hds, Or.inl hp⟩
    · rw [Function.update_of_ne hds]

/-- What is put below a place is put into the value that is there. -/
theorem get?_set_below {path : List Nat} (ht : t = ⟨u.ds, u.path ++ path⟩) (w : DataStateVal) :
    (h.set t w).get? u = (h.get? u).map fun v => v.set path w := by
  subst ht
  cases hc : h u.ds with
  | none => simp only [set, get?, hc, Option.bind_none, Option.map_none]
  | some c =>
    have hc' : h (DsvLoc.mk u.ds (u.path ++ path)).ds = some c := hc
    rw [set_eq hc', get?, get?, Function.update_self, hc]
    exact DataStateVal.get?_set_below u.path path c.val.val w

/-- Holding does not look at the values. -/
theorem rcHold_set (h : RwHeap) (t : DsvLoc) (w : DataStateVal) (ds : Nat) :
    rcHold (h.set t w) ds = (rcHold h ds).map fun h' => set h' t w := by
  unfold rcHold
  cases hc : h t.ds with
  | none =>
    simp only [set, hc]
    cases hd : h ds with
    | none => rfl
    | some d =>
      have hne : t.ds ≠ ds := fun heq => by
        rw [heq, hd] at hc
        cases hc
      simp only [Option.map_some, Function.update_of_ne hne, hc]
  | some c =>
    rw [set_eq hc]
    by_cases hds : ds = t.ds
    · subst hds
      simp only [Function.update_self, hc, Option.map_some, set, Function.update_idem]
    · rw [Function.update_of_ne hds]
      cases hd : h ds with
      | none => rfl
      | some d =>
        have hc' : Function.update h ds (some { d with refcnt := d.refcnt + 1 }) t.ds = some c :=
          (Function.update_of_ne (Ne.symm hds) ..).trans hc
        simp only [Option.map_some, set_eq hc']
        rw [Function.update_comm hds]

/-- In the data states that stay, a shrunk heap has the values that it had. -/
theorem get?_of_shrinks (hs : Shrinks h h') (hu : (h' u.ds).isSome) : h'.get? u = h.get? u := by
  obtain ⟨c', hc'⟩ := Option.isSome_iff_exists.mp hu
  obtain ⟨c, hc, hval⟩ := hs u.ds c' hc'
  rw [get?, get?, hc, hc', Option.bind_some, Option.bind_some, hval]

/-- Held data states keep their values. -/
theorem get?_of_same (hs : ∀ ds, (h' ds).map Counted.val = (h ds).map Counted.val) :
    h'.get? u = h.get? u := by
  have hsame := hs u.ds
  unfold get?
  cases hc : h u.ds with
  | none =>
    rw [hc, Option.map_none, Option.map_eq_none_iff] at hsame
    rw [hsame]
  | some c =>
    rw [hc, Option.map_some] at hsame
    obtain ⟨c', hc', hval⟩ := Option.map_eq_some_iff.mp hsame
    rw [hc', Option.bind_some, Option.bind_some, hval]

end RwHeap

/-! ## What the operations on values do -/

section Values

variable {S : Finset Nat} {roots : Nat → Nat} {pending pending' : List Nat} {h : RwHeap}
  {t u : DsvLoc} {v w : DataStateVal} {fuel : Nat}

/-- A value is written. -/
theorem balanced_set (hb : DsBalanced S h roots pending) (hv : h.get? t = some v)
    (hsame : ∀ d, w.refs.count d + pending'.count d = v.refs.count d + pending.count d) :
    DsBalanced S (h.set t w) roots pending' := by
  obtain ⟨c, hc, hval⟩ := RwHeap.get?_eq_some hv
  rw [RwHeap.set_eq hc]
  refine hb.write hc fun d => ?_
  have hset := DataStateVal.refs_set hval w d
  have := hsame d
  simp only [DsRw.refs]
  omega

/-- What a value points at is there. -/
theorem pointed_there (hb : DsBalanced S h roots pending) (hv : h.get? t = some v) {d : Nat}
    (hd : d ∈ v.refs) : (h d).isSome := by
  obtain ⟨c, hc, hval⟩ := RwHeap.get?_eq_some hv
  exact hb.pointed hc (DataStateVal.refs_get? hval hd)

/-- What freeing the value at `t` leaves. -/
structure Freed (S : Finset Nat) (roots : Nat → Nat) (h : RwHeap) (t : DsvLoc) (h' : RwHeap) :
    Prop where
  balanced : DsBalanced S h' roots []
  kept : ∀ ds, Kept roots h t ds → (h' ds).isSome
  apart : ∀ u, ¬ u.Overlaps t → (h' u.ds).isSome → RwHeap.get? h' u = h.get? u

/-- What the freed value pointed at is dropped. -/
theorem freeRefs_spec (hb : DsBalanced S h roots []) (hfuel : S.card ≤ fuel)
    (hv : h.get? t = some v) : ∃ h',
      v.refs.foldlM (rcDrop DsRw.refs fuel) (h.set t (.unk v.raw)) = some h' ∧
        Freed S roots h t h' ∧ ((h' t.ds).isSome → RwHeap.get? h' t = some (.unk v.raw)) := by
  have hb₁ : DsBalanced S (h.set t (.unk v.raw)) roots (v.refs ++ []) := by
    refine balanced_set hb hv fun d => ?_
    rw [List.append_nil, DataStateVal.refs]
    exact Nat.add_comm ..
  have hcount : cellCount S (h.set t (.unk v.raw)) ≤ fuel :=
    (Finset.card_filter_le ..).trans hfuel
  obtain ⟨h', hx, hb', hs⟩ := hb₁.dropAll hcount
  have hapart : ∀ u, ¬ u.Overlaps t → (h' u.ds).isSome → RwHeap.get? h' u = h.get? u := by
    intro u hu hthere
    rw [RwHeap.get?_of_shrinks hs hthere, RwHeap.get?_set_apart hu]
  refine ⟨h', hx, ⟨hb', fun ds hds => ?_, hapart⟩, fun hthere => ?_⟩
  · -- what is kept is still owned, or pointed at by a value that stayed
    induction hds with
    | owned hroot =>
      apply (hb'.there _).mpr
      unfold owners
      omega
    | pointed _ hu hget hds ih =>
      rw [← hapart _ hu ih] at hget
      refine pointed_there hb' hget ?_
      rw [DataStateVal.refs, hds]
      exact List.mem_singleton_self _
  · rw [RwHeap.get?_of_shrinks hs hthere, RwHeap.get?_set hv]

/-- **A value that is kept can be freed.** -/
theorem freeData_some (hb : DsBalanced S h roots []) (hfuel : S.card ≤ fuel)
    (hv : h.get? t = some v) (hkept : Kept roots h t t.ds) :
    ∃ h', h.dsvFreeData fuel t = some h' := by
  obtain ⟨h', hx, hf, -⟩ := freeRefs_spec hb hfuel hv
  have hthere := hf.kept t.ds hkept
  refine ⟨h', ?_⟩
  unfold RwHeap.dsvFreeData
  rw [hv]
  simp only [Option.bind_eq_bind, Option.bind_some, hx, hthere, if_true]

theorem freeData_keeps (hb : DsBalanced S h roots []) (hfuel : S.card ≤ fuel) {h' : RwHeap}
    (hx : h.dsvFreeData fuel t = some h') :
    Freed S roots h t h' ∧ ∃ raw, RwHeap.get? h' t = some (.unk raw) := by
  unfold RwHeap.dsvFreeData at hx
  obtain ⟨v, hv, hx⟩ := Option.bind_eq_some_iff.mp hx
  obtain ⟨h₁, hx₁, hx⟩ := Option.bind_eq_some_iff.mp hx
  obtain ⟨h₂, hx₂, hf, hget⟩ := freeRefs_spec hb hfuel hv
  cases hx₁.symm.trans hx₂
  by_cases hthere : (h₁ t.ds).isSome = true
  · rw [if_pos hthere] at hx
    cases hx
    exact ⟨hf, v.raw, hget hthere⟩
  · rw [if_neg hthere] at hx
    cases hx

/-- A freed value that is given a type. -/
theorem allocData_keeps (hb : DsBalanced S h roots []) (hfuel : S.card ≤ fuel) {type : ValType}
    {h' : RwHeap} (hx : h.dsvAllocData fuel t type = some h') :
    Freed S roots h t h' ∧
      ∃ raw, RwHeap.get? h' t = some ((DataStateVal.unk raw).alloc type) := by
  unfold RwHeap.dsvAllocData at hx
  obtain ⟨h₁, hx₁, hx⟩ := Option.bind_eq_some_iff.mp hx
  obtain ⟨hf, raw, hget⟩ := freeData_keeps hb hfuel hx₁
  rw [hget, Option.bind_eq_bind, Option.bind_some] at hx
  cases hx
  have hrefs : ∀ d, ((DataStateVal.unk raw).alloc type).refs.count d = 0 := by
    intro d
    cases type <;> rfl
  refine ⟨⟨?_, fun ds hds => ?_, fun u hu hthere => ?_⟩, raw, RwHeap.get?_set hget _⟩
  · refine balanced_set hf.balanced hget fun d => ?_
    rw [hrefs d]
    rfl
  · rw [RwHeap.isSome_set]
    exact hf.kept ds hds
  · rw [RwHeap.isSome_set] at hthere
    rw [RwHeap.get?_set_apart hu, hf.apart u hu hthere]

theorem allocData_some (hb : DsBalanced S h roots []) (hfuel : S.card ≤ fuel)
    (hv : h.get? t = some v) (hkept : Kept roots h t t.ds) (type : ValType) :
    ∃ h', h.dsvAllocData fuel t type = some h' := by
  obtain ⟨h₁, hx⟩ := freeData_some hb hfuel hv hkept
  obtain ⟨-, raw, hget⟩ := freeData_keeps hb hfuel hx
  refine ⟨RwHeap.set h₁ t ((DataStateVal.unk raw).alloc type), ?_⟩
  unfold RwHeap.dsvAllocData
  simp only [hx, hget, Option.bind_eq_bind, Option.bind_some]

/-- Pointing a new address or reference at a data state that is there. -/
theorem holdSetv_spec (hb : DsBalanced S h roots []) {raw : Nat} {type : Sec2}
    {v2 : DataStateValRef}
    (hv : h.get? t = some (.sec2 raw type v2)) (hnew : v2.ds = none) {ds : Option Nat}
    (hds : ∀ d, ds = some d → (h d).isSome) (offset : Int) (bits : Nat) :
    ∃ h' err, h.dsVrefHoldSetv t ds offset bits = some (h', err) ∧ DsBalanced S h' roots [] ∧
      RwHeap.get? h' t = some (.sec2 raw type (if err then v2 else ⟨ds, offset, bits⟩)) := by
  unfold RwHeap.dsVrefHoldSetv
  rw [hv]
  by_cases hself : type = .ref ∧ ds.map dsVal = some t
  · exact ⟨h, true, by simp only [hself, and_self, if_true], hb, by rw [if_pos rfl]; exact hv⟩
  · simp only [hself, if_false]
    cases ds with
    | none =>
      refine ⟨_, false, rfl, balanced_set hb hv fun d => ?_, RwHeap.get?_set hv _⟩
      rw [DataStateVal.refs, DataStateVal.refs, hnew]
    | some d =>
      obtain ⟨c, hc⟩ := Option.isSome_iff_exists.mp (hds d rfl)
      -- the reference is held first here, and pointed with then
      obtain ⟨h₁, hx, hb₁, hsame⟩ := hb.holdAll (l := [d]) fun i hi => by
        rw [List.mem_singleton.mp hi]
        exact hds d rfl
      rw [List.foldlM_cons] at hx
      obtain ⟨h₂, hx, heq⟩ := Option.bind_eq_some_iff.mp hx
      cases heq
      have hget : RwHeap.get? h₁ t = some (.sec2 raw type v2) :=
        (RwHeap.get?_of_same hsame).trans hv
      refine ⟨RwHeap.set h₁ t (.sec2 raw type ⟨some d, offset, bits⟩), false, ?_, ?_,
        RwHeap.get?_set hget _⟩
      · rw [RwHeap.dsHold, RwHeap.rcHold_set, hx]
        rfl
      · refine balanced_set hb₁ hget fun d' => ?_
        rw [DataStateVal.refs, DataStateVal.refs, hnew]
        simp

theorem setv_spec (hb : DsBalanced S h roots []) {raw : Nat} {type : Sec2} {v2 : DataStateValRef}
    (hv : h.get? t = some (.sec2 raw type v2)) (hnew : v2.ds = none) {ds : Nat}
    (hds : (h ds).isSome) (offset : Int) (bits : Nat) :
    ∃ h' err, h.dsVrefSetv t ds offset bits = some (h', err) ∧ DsBalanced S h' roots [] := by
  obtain ⟨c, hc⟩ := Option.isSome_iff_exists.mp hds
  have hget : h.get? (dsVal ds) = some c.val.val := by
    rw [RwHeap.get?, dsVal, hc]
    rfl
  have hself : ∀ d, some ds = some d → (h d).isSome := fun d hd => by
    cases hd
    exact hds
  unfold RwHeap.dsVrefSetv
  rw [hget]
  split
  · rename_i hno
    cases hno
  · rename_i v2' hval
    rw [Option.some.inj hval] at hget
    have htarget : ∀ d, v2'.ds = some d → (h d).isSome := fun d hd => by
      refine pointed_there hb hget ?_
      rw [DataStateVal.refs, hd]
      exact List.mem_singleton_self d
    obtain ⟨h', err, hx, hb', -⟩ := holdSetv_spec hb hv hnew htarget
        (s32 (offset + v2'.offset)) bits
    exact ⟨h', err, hx, hb'⟩
  · obtain ⟨h', err, hx, hb', -⟩ := holdSetv_spec hb hv hnew hself offset bits
    exact ⟨h', err, hx, hb'⟩

/-- What is in or at a place that was freed has no elements. -/
theorem below_unk {raw : Nat} (hd : h.get? t = some (.unk raw)) {s : DataStateVal}
    (hs : h.get? u = some s) (hin : u.ds = t.ds ∧ t.path <+: u.path) : t = u ∧ s = .unk raw := by
  obtain ⟨ds, path⟩ := u
  obtain ⟨rfl, rest, rfl⟩ := hin
  obtain ⟨c, hc, hval⟩ := RwHeap.get?_eq_some hd
  rw [RwHeap.get?, hc, Option.bind_some, DataStateVal.get?_append, hval, Option.bind_some] at hs
  cases rest with
  | nil =>
    cases hs
    exact ⟨by rw [List.append_nil], rfl⟩
  | cons i rest => cases hs

/-- Writing below the elements of a constructor leaves their number, and elsewhere all of it. -/
theorem set_elems {raw total : Nat} {subtype : Bool} {v3 : List (DataStateVal1 DataStateVal)}
    (hs : h.get? u = some (.sec3 raw subtype total v3)) (hout : ¬ (u.ds = t.ds ∧ t.path <+: u.path))
    (w : DataStateVal) :
    ∃ v3', RwHeap.get? (h.set t w) u = some (.sec3 raw subtype total v3') ∧
      v3'.length = v3.length ∧ (¬ u.Overlaps t → v3' = v3) := by
  by_cases hover : u.Overlaps t
  · obtain ⟨hds, hpath | hpath⟩ := hover
    · obtain ⟨rest, hrest⟩ := hpath
      have ht : t = ⟨u.ds, u.path ++ rest⟩ := by
        rw [hds, hrest]
      cases rest with
      | nil =>
        rw [List.append_nil] at hrest
        exact absurd ⟨hds, hrest ▸ List.prefix_rfl⟩ hout
      | cons k rest =>
        refine ⟨v3.modify k fun e => { e with val := e.val.set rest w }, ?_,
          List.length_modify .., fun hno => ?_⟩
        · rw [RwHeap.get?_set_below ht, hs]
          rfl
        · exact absurd ⟨hds, Or.inl ⟨k :: rest, hrest⟩⟩ hno
    · exact absurd ⟨hds, hpath⟩ hout
  · exact ⟨v3, by rw [RwHeap.get?_set_apart hover, hs], rfl, fun _ => rfl⟩

/-- **An element is copied**: the counters stay right, and where `dst` is no part of `src` all that
    changes is that `dst` has a copy of the element more. -/
theorem copyElem_spec (hb : DsBalanced S h roots []) {r n raw total : Nat} {b subtype : Bool}
    {v3 w3 : List (DataStateVal1 DataStateVal)} (hd : h.get? t = some (.sec3 r b n w3))
    (hs : h.get? u = some (.sec3 raw subtype total v3)) (hout : ¬ (u.ds = t.ds ∧ t.path <+: u.path))
    {i : Nat} (hi : i < v3.length) :
    ∃ h' w3' v3', RwHeap.copyElem t u h i = some h' ∧ DsBalanced S h' roots [] ∧
      RwHeap.get? h' t = some (.sec3 r b n w3') ∧
      RwHeap.get? h' u = some (.sec3 raw subtype total v3') ∧ v3'.length = v3.length ∧
      (¬ u.Overlaps t → w3' = w3 ++ [v3[i]] ∧ v3' = v3) := by
  have helem : v3[i]? = some v3[i] := List.getElem?_eq_getElem hi
  have hpart : (DataStateVal.sec3 raw subtype total v3).get? [i] = some v3[i].val := by
    rw [DataStateVal.get?, helem]
    rfl
  obtain ⟨h₁, hx, hb₁, hsame⟩ := hb.holdAll (l := v3[i].val.refs) fun d hmem =>
    pointed_there hb hs (DataStateVal.refs_get? hpart hmem)
  have hd₁ : RwHeap.get? h₁ t = some (.sec3 r b n w3) := (RwHeap.get?_of_same hsame).trans hd
  have hs₁ : RwHeap.get? h₁ u = some (.sec3 raw subtype total v3) :=
    (RwHeap.get?_of_same hsame).trans hs
  set w := DataStateVal.sec3 r b n (w3 ++ [v3[i]]) with hw
  have hstep : RwHeap.copyElem t u h i = some (RwHeap.set h₁ t w) := by
    unfold RwHeap.copyElem
    simp only [hs, helem, hx, hd₁, Option.bind_eq_bind, Option.bind_some, DataStateVal.copy_eq]
    rfl
  have hb₂ : DsBalanced S (RwHeap.set h₁ t w) roots [] := by
    refine balanced_set hb₁ hd₁ fun d => ?_
    rw [hw, DataStateVal.refs, DataStateVal.refs, DataStateVal.refsElems_append,
      List.count_append, List.count_append, List.count_nil]
    simp only [DataStateVal.refsElems, List.append_nil]
    omega
  obtain ⟨v3', hs₂, hlen, hsame⟩ := set_elems hs₁ hout w
  exact ⟨_, w3 ++ [v3[i]], v3', hstep, hb₂, RwHeap.get?_set hd₁ w, hs₂, hlen,
    fun hno => ⟨rfl, hsame hno⟩⟩

/-- **All elements are copied.**  The induction is on the elements that are left. -/
theorem copyElems_spec (l : List Nat) (hb : DsBalanced S h roots []) {r n raw total : Nat}
    {b subtype : Bool} {v3 w3 : List (DataStateVal1 DataStateVal)}
    (hd : h.get? t = some (.sec3 r b n w3)) (hs : h.get? u = some (.sec3 raw subtype total v3))
    (hout : ¬ (u.ds = t.ds ∧ t.path <+: u.path)) (hl : ∀ i ∈ l, i < v3.length) :
    ∃ h' w3' v3', l.foldlM (RwHeap.copyElem t u) h = some h' ∧ DsBalanced S h' roots [] ∧
      RwHeap.get? h' t = some (.sec3 r b n w3') ∧
      RwHeap.get? h' u = some (.sec3 raw subtype total v3') ∧
      (¬ u.Overlaps t → w3' = w3 ++ l.filterMap (fun i => v3[i]?) ∧ v3' = v3) := by
  induction l generalizing h w3 v3 with
  | nil =>
    refine ⟨h, w3, v3, rfl, hb, hd, hs, fun _ => ⟨?_, rfl⟩⟩
    rw [List.filterMap_nil, List.append_nil]
  | cons i l ih =>
    have hi := hl i List.mem_cons_self
    obtain ⟨h₁, w3₁, v3₁, hx, hb₁, hd₁, hs₁, hlen, hexact⟩ := copyElem_spec hb hd hs hout hi
    obtain ⟨h', w3', v3', hxs, hb', hd', hs', hexact'⟩ := ih hb₁ hd₁ hs₁ fun j hj => by
      rw [hlen]
      exact hl j (List.mem_cons_of_mem i hj)
    refine ⟨h', w3', v3', ?_, hb', hd', hs', fun hno => ?_⟩
    · rw [List.foldlM_cons, hx]
      exact hxs
    · obtain ⟨rfl, rfl⟩ := hexact hno
      obtain ⟨rfl, rfl⟩ := hexact' hno
      refine ⟨?_, rfl⟩
      rw [List.filterMap_cons, List.getElem?_eq_getElem hi, List.append_assoc]
      rfl

/-- **Copying over a value that was freed.** -/
theorem copyFreed_spec (hb : DsBalanced S h roots []) {raw : Nat} (hd : h.get? t = some (.unk raw))
    {s : DataStateVal} (hs : h.get? u = some s) :
    ∃ h' err, h.copyFreed t u = some (h', err) ∧ DsBalanced S h' roots [] := by
  unfold RwHeap.copyFreed
  simp only [hd, hs, Option.bind_eq_bind, Option.bind_some]
  cases s with
  | sec2 raw' type v2 =>
    have hb₂ : DsBalanced S (h.set t (.sec2 raw type ⟨none, 0, 0⟩)) roots [] :=
      balanced_set hb hd fun d => rfl
    have htarget : ∀ d, v2.ds = some d → (h.set t (.sec2 raw type ⟨none, 0, 0⟩) d).isSome := by
      intro d hv2
      rw [RwHeap.isSome_set]
      refine pointed_there hb hs ?_
      rw [DataStateVal.refs, hv2]
      exact List.mem_singleton_self d
    obtain ⟨h₂, err, hy, hb₃, hget₂⟩ := holdSetv_spec hb₂ (RwHeap.get?_set hd _) rfl htarget
      v2.offset v2.bits
    have hraw : (DataStateVal.unk raw).raw = raw := rfl
    simp only [hraw, hy, Option.bind_some]
    cases err with
    | true => exact ⟨h₂, true, rfl, hb₃⟩
    | false =>
      refine ⟨RwHeap.set h₂ t (.sec2 raw' type v2), false, rfl, ?_⟩
      exact balanced_set hb₃ hget₂ fun d => rfl
  | sec3 raw' subtype total v3 =>
    have hout : ¬ (u.ds = t.ds ∧ t.path <+: u.path) := fun hin => by
      cases (below_unk hd hs hin).2
    have hb₁ : DsBalanced S (h.set t (.sec3 raw subtype total [])) roots [] :=
      balanced_set hb hd fun d => rfl
    obtain ⟨v3', hs₁, hlen, -⟩ := set_elems hs hout (.sec3 raw subtype total [])
    obtain ⟨h', w3', v3₂, hx, hb', hd', -, -⟩ := copyElems_spec (List.range v3.length) hb₁
      (RwHeap.get?_set hd _) hs₁ hout fun i hi => by
        rw [hlen]
        exact List.mem_range.mp hi
    have hraw : (DataStateVal.unk raw).raw = raw := rfl
    simp only [hraw, hx, Option.bind_some, hd']
    exact ⟨_, false, rfl, balanced_set hb' hd' fun d => rfl⟩
  | _ => exact ⟨_, false, rfl, balanced_set hb hd fun d => by rw [DataStateVal.copy_eq]; rfl⟩

/-- What a place is a part of is there. -/
theorem isSome_above (hin : u.ds = t.ds ∧ u.path <+: t.path) (ht : (h.get? t).isSome) :
    (h.get? u).isSome := by
  obtain ⟨ds, path⟩ := t
  obtain ⟨rfl, rest, rfl⟩ := hin
  obtain ⟨v, hv⟩ := Option.isSome_iff_exists.mp ht
  obtain ⟨c, hc, hval⟩ := RwHeap.get?_eq_some hv
  rw [DataStateVal.get?_append] at hval
  obtain ⟨w, hw, -⟩ := Option.bind_eq_some_iff.mp hval
  rw [RwHeap.get?, hc, Option.bind_some, hw]
  rfl

/-- What is copied over a value is read when that value is gone: it is there then if it was no part
    of it. -/
theorem copyForce_isSome (hb : DsBalanced S h roots []) (hfuel : S.card ≤ fuel)
    (hv : h.get? t = some v) (hkept : Kept roots h t t.ds) {s : DataStateVal}
    (hs : h.get? u = some s) (hsrc : Kept roots h t u.ds) :
    (h.dsvCopyDataForce fuel t u).isSome ↔ ¬ u.PartOf t := by
  obtain ⟨h₁, hx⟩ := freeData_some hb hfuel hv hkept
  obtain ⟨hf, raw, hget⟩ := freeData_keeps hb hfuel hx
  have hrun : h.dsvCopyDataForce fuel t u = h₁.copyFreed t u := by
    unfold RwHeap.dsvCopyDataForce
    rw [hx, Option.bind_eq_bind, Option.bind_some]
  rw [hrun]
  constructor
  · rintro hsome ⟨hne, hds, hpath⟩
    obtain ⟨r, hr⟩ := Option.isSome_iff_exists.mp hsome
    unfold RwHeap.copyFreed at hr
    obtain ⟨d, -, hr⟩ := Option.bind_eq_some_iff.mp hr
    obtain ⟨s', hs', -⟩ := Option.bind_eq_some_iff.mp hr
    exact hne (below_unk hget hs' ⟨hds, hpath⟩).1.symm
  · intro hpart
    obtain ⟨s', hget'⟩ : ∃ s', RwHeap.get? h₁ u = some s' := by
      by_cases hover : u.Overlaps t
      · obtain ⟨hds, hpath | hpath⟩ := hover
        · exact Option.isSome_iff_exists.mp
            (isSome_above ⟨hds, hpath⟩ (Option.isSome_iff_exists.mpr ⟨_, hget⟩))
        · obtain rfl : u = t := by
            by_contra hne
            exact hpart ⟨hne, hds, hpath⟩
          exact ⟨_, hget⟩
      · exact ⟨s, (hf.apart u hover (hf.kept _ hsrc)).trans hs⟩
    obtain ⟨h', err, hy, -⟩ := copyFreed_spec hf.balanced hget hget'
    rw [hy]
    rfl

theorem copyForce_keeps (hb : DsBalanced S h roots []) (hfuel : S.card ≤ fuel) {r : RwHeap × Bool}
    (hx : h.dsvCopyDataForce fuel t u = some r) : DsBalanced S r.1 roots [] := by
  unfold RwHeap.dsvCopyDataForce at hx
  obtain ⟨h₁, hx₁, hx⟩ := Option.bind_eq_some_iff.mp hx
  obtain ⟨hf, raw, hget⟩ := freeData_keeps hb hfuel hx₁
  have hx' := hx
  unfold RwHeap.copyFreed at hx'
  obtain ⟨d, -, hx'⟩ := Option.bind_eq_some_iff.mp hx'
  obtain ⟨s, hs, -⟩ := Option.bind_eq_some_iff.mp hx'
  obtain ⟨h', err, hy, hb'⟩ := copyFreed_spec hf.balanced hget hs
  cases hx.symm.trans hy
  exact hb'

theorem copy_keeps (hb : DsBalanced S h roots []) (hfuel : S.card ≤ fuel) {r : RwHeap × Bool}
    (hx : h.dsvCopyData fuel t u = some r) : DsBalanced S r.1 roots [] := by
  unfold RwHeap.dsvCopyData at hx
  split at hx
  · cases hx
    exact hb
  · split at hx
    · split at hx
      · cases hx
        exact hb
      · exact copyForce_keeps hb hfuel hx
    · cases hx

/-- A new element points nowhere. -/
theorem dsv1Add_keeps (hb : DsBalanced S h roots []) {raw : Nat} {offset : Int} {bits : Nat}
    {h' : RwHeap} (hx : h.dsv1Add t raw offset bits = some h') : DsBalanced S h' roots [] := by
  unfold RwHeap.dsv1Add at hx
  split at hx
  · rename_i hget
    cases hx
    refine balanced_set hb hget fun d => ?_
    simp only [DataStateVal.refs, DataStateVal.refsElems_append, DataStateVal.refsElems,
      List.append_nil]
  · cases hx

/-- A reference is only pointed at a data state that is there. -/
theorem holdSetv_keeps (hb : DsBalanced S h roots []) {raw : Nat} {type : Sec2}
    {v2 : DataStateValRef} (hv : h.get? t = some (.sec2 raw type v2)) (hnew : v2.ds = none)
    {ds : Option Nat} {offset : Int} {bits : Nat} {r : RwHeap × Bool}
    (hx : h.dsVrefHoldSetv t ds offset bits = some r) : DsBalanced S r.1 roots [] := by
  by_cases hself : type = .ref ∧ ds.map dsVal = some t
  · unfold RwHeap.dsVrefHoldSetv at hx
    simp only [hv, hself, and_self, if_true] at hx
    cases hx
    exact hb
  · have hds : ∀ d, ds = some d → (h d).isSome := by
      rintro d rfl
      unfold RwHeap.dsVrefHoldSetv at hx
      simp only [hv, hself, if_false, RwHeap.dsHold, rcHold] at hx
      obtain ⟨h', hy, -⟩ := Option.map_eq_some_iff.mp hx
      obtain ⟨c, hc, -⟩ := Option.map_eq_some_iff.mp hy
      rw [← RwHeap.isSome_set h t, hc]
      rfl
    obtain ⟨h', err, hy, hb', -⟩ := holdSetv_spec hb hv hnew hds offset bits
    cases hx.symm.trans hy
    exact hb'

theorem setv_keeps (hb : DsBalanced S h roots []) {raw : Nat} {type : Sec2}
    {v2 : DataStateValRef} (hv : h.get? t = some (.sec2 raw type v2)) (hnew : v2.ds = none)
    {ds : Nat} {offset : Int} {bits : Nat} {r : RwHeap × Bool}
    (hx : h.dsVrefSetv t ds offset bits = some r) : DsBalanced S r.1 roots [] := by
  unfold RwHeap.dsVrefSetv at hx
  split at hx
  · cases hx
  · exact holdSetv_keeps hb hv hnew hx
  · exact holdSetv_keeps hb hv hnew hx

/-- **Every operation on values that comes back keeps the balance.** -/
theorem op_keeps (hb : DsBalanced S h roots []) (hfuel : S.card ≤ fuel) {op : DsvOp} {h' : RwHeap}
    (hx : op.run fuel h = some h') : DsBalanced S h' roots [] := by
  cases op with
  | alloc t type => exact (allocData_keeps hb hfuel hx).1.balanced
  | add t raw offset bits => exact dsv1Add_keeps hb hx
  | allocSetv t type ds offset bits =>
    obtain ⟨h₁, hx₁, hx⟩ := Option.bind_eq_some_iff.mp hx
    obtain ⟨hf, raw, hget⟩ := allocData_keeps hb hfuel hx₁
    obtain ⟨r, hy, rfl⟩ := Option.map_eq_some_iff.mp hx
    exact setv_keeps hf.balanced hget rfl hy
  | allocHoldSetv t type ds offset bits =>
    obtain ⟨h₁, hx₁, hx⟩ := Option.bind_eq_some_iff.mp hx
    obtain ⟨hf, raw, hget⟩ := allocData_keeps hb hfuel hx₁
    obtain ⟨r, hy, rfl⟩ := Option.map_eq_some_iff.mp hx
    exact holdSetv_keeps hf.balanced hget rfl hy
  | copy dst src =>
    obtain ⟨r, hy, rfl⟩ := Option.map_eq_some_iff.mp hx
    exact copy_keeps hb hfuel hy
  | copyForce dst src =>
    obtain ⟨r, hy, rfl⟩ := Option.map_eq_some_iff.mp hx
    exact copyForce_keeps hb hfuel hy
  | freeData t => exact (freeData_keeps hb hfuel hx).1.balanced

end Values

/-! ## What must hold -/

namespace DsStore

/-- How many addresses and references point at a data state. -/
def values (s : DsStore) (ds : Nat) : Nat := pointers DsRw.refs (Finset.range s.next) s.heap ds

/-- How many lists it is in. -/
def listed (s : DsStore) (ds : Nat) : Nat :=
  ∑ l ∈ Finset.range s.nextList, ((s.lists l).getD []).count ds

/-- Lists and callers. -/
def roots (s : DsStore) (ds : Nat) : Nat := s.listed ds + s.holds ds

/-- **What the counter of a data state must be.** -/
def count (s : DsStore) (ds : Nat) : Nat := s.values ds + s.listed ds + s.holds ds

/-- The callers can reach the value at `u` while the one at `t` is overwritten: they follow the
    pointers from a data state that they hold or find in a list. -/
def Reaches (s : DsStore) (t u : DsvLoc) : Prop :=
  Kept s.roots s.heap t u.ds ∧ (s.heap.get? u).isSome

end DsStore

/-- **The counters are right, a data state is there exactly when something counts for it, and no
    value points at one that is gone.** -/
structure CountsRight (s : DsStore) : Prop where
  right : ∀ ds c, s.heap ds = some c → c.refcnt = s.count ds
  there : ∀ ds, (s.heap ds).isSome ↔ 0 < s.count ds
  pointed : ∀ t raw type v2 ds, s.heap.get? t = some (.sec2 raw type v2) → v2.ds = some ds →
    (s.heap ds).isSome

/-- **What the callers pass to an operation on values**: places that they can reach, and a
    constructor to add an element to. -/
def DsvOp.Reach (s : DsStore) : DsvOp → Prop
  | .alloc t _ => s.Reaches t t
  | .add t _ _ _ => ∃ raw subtype total v3, s.heap.get? t = some (.sec3 raw subtype total v3)
  | .allocSetv t _ ds _ _ => s.Reaches t t ∧ Kept s.roots s.heap t ds
  | .allocHoldSetv t _ ds _ _ => s.Reaches t t ∧ ∀ d, ds = some d → Kept s.roots s.heap t d
  | .copy dst src => s.Reaches dst dst ∧ s.Reaches dst src
  | .copyForce dst src => s.Reaches dst dst ∧ s.Reaches dst src
  | .freeData t => s.Reaches t t

/-- What is copied is no part of the value that it is copied over, as long as `dsv_copy_data` does
    not refuse to. -/
def DsvOp.CopyApart (s : DsStore) : DsvOp → Prop
  | .copy dst src => ∀ d v, s.heap.get? dst = some d → s.heap.get? src = some v →
      d.copyable v = true → ¬ src.PartOf dst
  | .copyForce dst src => ¬ src.PartOf dst
  | _ => True

/-- **What the callers do.**  Values are written and read where the callers can reach them; a data
    state is dropped by a caller that holds it, and a list is used until it is freed. -/
def CallersReach (s : DsStore) : DsrEvent → Prop
  | .hold ds => (s.heap ds).isSome
  | .drop ds => 0 < s.holds ds
  | .fnlAdd l _ _ _ _ => (s.lists l).isSome
  | .val op => op.Reach s
  | .fnListFree l => l ≠ 0 ∧ (s.lists l).isSome
  | _ => True

/-- **No value is copied from a part of what it overwrites.** -/
def CopiesApart (s : DsStore) : DsrEvent → Prop
  | .val op => op.CopyApart s
  | _ => True

/-! ## The operations on the store -/

section Store

variable {s s' : DsStore} {pending : List Nat} {ds l : Nat}

/-- The counters are right but for the references that are to be dropped. -/
structure StoreCounts (s : DsStore) (pending : List Nat) : Prop where
  balanced : DsBalanced (Finset.range s.next) s.heap s.roots pending
  lists : ∀ l, (s.lists l).isSome → l < s.nextList
  global : (s.lists 0).isSome

theorem StoreCounts.right (hi : StoreCounts s []) : CountsRight s := by
  have hcount : ∀ ds, owners DsRw.refs (Finset.range s.next) s.heap s.roots [] ds = s.count ds := by
    intro ds
    unfold owners DsStore.count DsStore.roots DsStore.values
    rw [List.count_nil]
    omega
  refine ⟨fun ds c hc => ?_, fun ds => ?_, fun t raw type v2 ds hget hds => ?_⟩
  · rw [← hcount]
    exact hi.balanced.right ds c hc
  · rw [← hcount]
    exact hi.balanced.there ds
  · refine pointed_there hi.balanced hget ?_
    rw [DataStateVal.refs, hds]
    exact List.mem_singleton_self ds

theorem listed_update (hl : l < s.nextList) (o : Option (List Nat)) (ds : Nat) :
    { s with lists := Function.update s.lists l o }.listed ds + ((s.lists l).getD []).count ds =
      s.listed ds + (o.getD []).count ds :=
  sum_update_add (fun o => (o.getD []).count ds) (Finset.mem_range.mpr hl) o

/-- Another list in the place of one. -/
theorem StoreCounts.relist (hi : StoreCounts s pending) (hl : (s.lists l).isSome)
    {o : Option (List Nat)} (ho : l = 0 → o.isSome) {pending' : List Nat}
    (hsame : ∀ ds, (o.getD []).count ds + pending'.count ds =
      ((s.lists l).getD []).count ds + pending.count ds) :
    StoreCounts { s with lists := Function.update s.lists l o } pending' := by
  have hlt := hi.lists l hl
  refine ⟨hi.balanced.reroot fun ds => ?_, fun k hk => ?_, ?_⟩
  · have hlisted := listed_update hlt o ds (s := s)
    have := hsame ds
    simp only [DsStore.roots]
    omega
  · by_cases hkl : k = l
    · exact hkl ▸ hlt
    · have hk : (Function.update s.lists l o k).isSome := hk
      rw [Function.update_of_ne hkl] at hk
      exact hi.lists k hk
  · show (Function.update s.lists l o 0).isSome
    by_cases h0 : l = 0
    · rw [h0, Function.update_self]
      exact ho h0
    · rw [Function.update_of_ne (Ne.symm h0)]
      exact hi.global

theorem StoreCounts.link (hi : StoreCounts s (ds :: pending)) (hl : (s.lists l).isSome) :
    StoreCounts (s.link l ds) pending := by
  obtain ⟨members, hm⟩ := Option.isSome_iff_exists.mp hl
  refine hi.relist hl (fun _ => by rw [Option.isSome_map]; exact hl) fun d => ?_
  rw [hm]
  simp only [Option.map_some, Option.getD_some, List.count_append, List.count_cons, List.count_nil]
  omega

theorem StoreCounts.unlink (hi : StoreCounts s pending) {members : List Nat}
    (hm : s.lists l = some members) (hds : ds ∈ members) :
    StoreCounts (s.unlink l ds) (ds :: pending) := by
  have hl : (s.lists l).isSome := by
    rw [hm]
    rfl
  refine hi.relist hl (fun _ => by rw [Option.isSome_map]; exact hl) fun d => ?_
  have hcount := List.count_erase (a := d) (b := ds) (l := members)
  have hpos := List.count_pos_iff.mpr hds
  rw [hm]
  simp only [Option.map_some, Option.getD_some, List.count_cons]
  by_cases hd : ds = d
  · subst hd
    simp only [beq_self_eq_true, if_true] at hcount ⊢
    omega
  · have hne : (ds == d) = false := by simpa using hd
    simp only [hne, Bool.false_eq_true, if_false] at hcount ⊢
    omega

theorem StoreCounts.addHold (hi : StoreCounts s (ds :: pending)) :
    StoreCounts (s.addHold ds) pending := by
  refine ⟨hi.balanced.reroot fun d => ?_, hi.lists, hi.global⟩
  simp only [DsStore.roots, DsStore.addHold, DsStore.listed]
  by_cases hd : d = ds
  · rw [hd, Function.update_self, List.count_cons_self]
    omega
  · rw [Function.update_of_ne hd, List.count_cons_of_ne (Ne.symm hd)]

theorem StoreCounts.rwNew (hi : StoreCounts s pending) (addr : Nat) (type : DsRefType) (raw : Nat) :
    StoreCounts (s.rwNew addr type raw) (s.next :: pending) := by
  have hnew : s.heap s.next = none := by
    by_contra hsome
    have := hi.balanced.made s.next (Option.isSome_iff_ne_none.mpr hsome)
    exact absurd (Finset.mem_range.mp this) (Nat.lt_irrefl _)
  refine ⟨?_, hi.lists, hi.global⟩
  have hb := hi.balanced.alloc hnew (v := ⟨dsInitBase addr type, .unk raw⟩) rfl
  rw [← Finset.range_add_one] at hb
  exact hb

theorem StoreCounts.hold (hi : StoreCounts s pending) (hds : (s.heap ds).isSome) :
    ∃ s', s.hold ds = some s' ∧ StoreCounts s' pending := by
  obtain ⟨c, hc⟩ := Option.isSome_iff_exists.mp hds
  refine ⟨_, by rw [DsStore.hold, RwHeap.dsHold, rcHold, hc]; rfl, ?_⟩
  exact StoreCounts.addHold ⟨hi.balanced.hold hc, hi.lists, hi.global⟩

theorem StoreCounts.drop (hi : StoreCounts s (ds :: pending)) :
    ∃ s', s.drop ds = some s' ∧ StoreCounts s' pending ∧ s'.lists = s.lists := by
  have hcount : cellCount (Finset.range s.next) s.heap ≤ s.next :=
    (Finset.card_filter_le ..).trans_eq (Finset.card_range _)
  obtain ⟨h, hx, hb, -⟩ := hi.balanced.drop hcount
  exact ⟨{ s with heap := h }, by rw [DsStore.drop, RwHeap.dsDrop, hx]; rfl,
    ⟨hb, hi.lists, hi.global⟩, rfl⟩

theorem dsFind_some {addr : Nat} {type : DsRefType} (h : s.dsFind l addr type = some ds) :
    (s.heap ds).isSome := by
  have hfound := List.find?_some h
  cases hc : s.heap ds with
  | none =>
    rw [hc] at hfound
    cases hfound
  | some c => rfl

theorem fnlDsFind_spec (hi : StoreCounts s []) (l addr : Nat) (type : DsRefType) :
    ∃ r, s.fnlDsFind l addr type = some r ∧ StoreCounts r.1 [] := by
  unfold DsStore.fnlDsFind
  split
  · exact ⟨_, rfl, hi⟩
  · rename_i ds hfind
    obtain ⟨s', hx, hi'⟩ := hi.hold (dsFind_some hfind)
    exact ⟨(s', some ds), by rw [hx, Option.map_some], hi'⟩

theorem fnlDsAdd_spec (hi : StoreCounts s []) (hl : (s.lists l).isSome) (addr : Nat)
    (type : DsRefType) (raw : Nat) (linkFails : Bool) :
    ∃ r, s.fnlDsAdd l addr type raw linkFails = some r ∧ StoreCounts r.1 [] := by
  unfold DsStore.fnlDsAdd
  split
  · rename_i ds hfind
    obtain ⟨s', hx, hi'⟩ := hi.hold (dsFind_some hfind)
    exact ⟨(s', some ds), by rw [hx, Option.map_some], hi'⟩
  · have hnew := hi.rwNew addr type raw
    cases linkFails with
    | true =>
      obtain ⟨s', hx, hi', -⟩ := hnew.drop
      exact ⟨(s', none), by rw [if_pos rfl, hx, Option.map_some], hi'⟩
    | false =>
      have hthere : (((s.rwNew addr type raw).link l s.next).heap s.next).isSome := by
        simp only [DsStore.link, DsStore.rwNew, Function.update_self, Option.isSome_some]
      obtain ⟨s', hx, hi'⟩ := (hnew.link hl).hold hthere
      refine ⟨(s', some s.next), ?_, hi'⟩
      rw [if_neg Bool.false_ne_true, hx, Option.map_some]

theorem dupBases_spec (bases : List (DsBase × Nat)) (hi : StoreCounts s [])
    (hl : (s.lists l).isSome) : StoreCounts (s.dupBases l bases) [] := by
  induction bases generalizing s with
  | nil => exact hi
  | cons b bases ih =>
    refine ih ((hi.rwNew b.1.refBase b.1.refType b.2).link hl) ?_
    simp only [DsStore.link, DsStore.rwNew, Function.update_self, Option.isSome_map]
    exact hl

theorem initGlobal_spec (hi : StoreCounts s []) (bases : List (DsBase × Nat)) :
    StoreCounts (s.initGlobal bases) [] := by
  unfold DsStore.initGlobal
  split
  · exact dupBases_spec bases hi hi.global
  · exact hi

theorem fnListNew_spec (hi : StoreCounts s []) (bases : List (DsBase × Nat)) :
    StoreCounts (s.fnListNew bases) [] := by
  have hnone : s.lists s.nextList = none := by
    by_contra hsome
    exact absurd (hi.lists _ (Option.isSome_iff_ne_none.mpr hsome)) (Nat.lt_irrefl _)
  refine dupBases_spec bases ⟨hi.balanced.reroot fun ds => ?_, fun k hk => ?_, ?_⟩ ?_
  · have hold : ∑ k ∈ Finset.range s.nextList,
        ((Function.update s.lists s.nextList (some []) k).getD []).count ds = s.listed ds := by
      refine Finset.sum_congr rfl fun k hk => ?_
      rw [Function.update_of_ne (Nat.ne_of_lt (Finset.mem_range.mp hk))]
    simp only [DsStore.roots, DsStore.listed] at hold ⊢
    rw [Finset.sum_range_succ, Function.update_self, hold]
    rfl
  · by_cases hkl : k = s.nextList
    · exact hkl ▸ Nat.lt_succ_self _
    · have hk : (Function.update s.lists s.nextList (some []) k).isSome := hk
      rw [Function.update_of_ne hkl] at hk
      exact (hi.lists k hk).trans (Nat.lt_succ_self _)
  · have hne : 0 ≠ s.nextList := Nat.ne_of_lt (hi.lists 0 hi.global)
    show (Function.update s.lists s.nextList (some []) 0).isSome
    rw [Function.update_of_ne hne]
    exact hi.global
  · show (Function.update s.lists s.nextList (some []) s.nextList).isSome
    rw [Function.update_self]
    rfl

/-- The loop of `fn_list_free`; the induction is on the members that are left. -/
theorem fnListFree_loop {members : List Nat} (hi : StoreCounts s [])
    (hm : s.lists l = some members) :
    ∃ s', members.foldlM (fun s ds => (s.unlink l ds).drop ds) s = some s' ∧ StoreCounts s' [] ∧
      s'.lists l = some [] := by
  induction members generalizing s with
  | nil => exact ⟨s, rfl, hi, hm⟩
  | cons ds members ih =>
    obtain ⟨s₁, hx, hi₁, hlists⟩ := (hi.unlink hm List.mem_cons_self).drop
    have hm₁ : s₁.lists l = some members := by
      rw [hlists]
      show Function.update s.lists l _ l = _
      rw [Function.update_self, hm, Option.map_some, List.erase_cons_head]
    obtain ⟨s', hxs, hi', hm'⟩ := ih hi₁ hm₁
    refine ⟨s', ?_, hi', hm'⟩
    rw [List.foldlM_cons, hx]
    exact hxs

theorem fnListFree_spec (hi : StoreCounts s []) (hl : (s.lists l).isSome) (h0 : l ≠ 0) :
    ∃ s', s.fnListFree l = some s' ∧ StoreCounts s' [] := by
  obtain ⟨members, hm⟩ := Option.isSome_iff_exists.mp hl
  obtain ⟨s', hx, hi', hm'⟩ := fnListFree_loop hi hm
  refine ⟨_, by rw [DsStore.fnListFree, hm, Option.bind_eq_bind, Option.bind_some, hx]; rfl, ?_⟩
  refine hi'.relist (by rw [hm']; rfl) (fun hz => absurd hz h0) fun ds => ?_
  rw [hm']
  rfl

/-- **An operation on values that the callers can reach** comes back exactly if it does not copy a
    part of what it overwrites. -/
theorem op_isSome (hi : StoreCounts s []) {op : DsvOp} (hg : op.Reach s) :
    (op.run s.next s.heap).isSome ↔ op.CopyApart s := by
  have hfuel : (Finset.range s.next).card ≤ s.next := (Finset.card_range _).le
  have hb := hi.balanced
  cases op with
  | alloc t type =>
    obtain ⟨v, hv⟩ := Option.isSome_iff_exists.mp hg.2
    obtain ⟨h, hx⟩ := allocData_some hb hfuel hv hg.1 type
    exact iff_of_true (Option.isSome_iff_exists.mpr ⟨h, hx⟩) trivial
  | add t raw offset bits =>
    obtain ⟨raw', subtype, total, v3, hv⟩ := hg
    refine iff_of_true ?_ trivial
    rw [DsvOp.run, RwHeap.dsv1Add, hv]
    rfl
  | allocSetv t type ds offset bits =>
    obtain ⟨v, hv⟩ := Option.isSome_iff_exists.mp hg.1.2
    obtain ⟨h, hx⟩ := allocData_some hb hfuel hv hg.1.1 (.sec2 type)
    obtain ⟨hf, raw, hget⟩ := allocData_keeps hb hfuel hx
    obtain ⟨h', err, hy, -⟩ := setv_spec hf.balanced hget rfl (hf.kept ds hg.2) offset bits
    refine iff_of_true ?_ trivial
    rw [DsvOp.run, hx, Option.bind_eq_bind, Option.bind_some, hy]
    rfl
  | allocHoldSetv t type ds offset bits =>
    obtain ⟨v, hv⟩ := Option.isSome_iff_exists.mp hg.1.2
    obtain ⟨h, hx⟩ := allocData_some hb hfuel hv hg.1.1 (.sec2 type)
    obtain ⟨hf, raw, hget⟩ := allocData_keeps hb hfuel hx
    obtain ⟨h', err, hy, -⟩ := holdSetv_spec hf.balanced hget rfl
      (fun d hd => hf.kept d (hg.2 d hd)) offset bits
    refine iff_of_true ?_ trivial
    rw [DsvOp.run, hx, Option.bind_eq_bind, Option.bind_some, hy]
    rfl
  | copy dst src =>
    obtain ⟨d, hd⟩ := Option.isSome_iff_exists.mp hg.1.2
    obtain ⟨v, hv⟩ := Option.isSome_iff_exists.mp hg.2.2
    have hforce := copyForce_isSome hb hfuel hd hg.1.1 hv hg.2.1
    rw [DsvOp.run, Option.isSome_map]
    unfold RwHeap.dsvCopyData DsvOp.CopyApart
    by_cases heq : dst = src
    · subst heq
      exact iff_of_true (by rw [if_pos rfl]; rfl) fun _ _ _ _ _ hpart => hpart.1 rfl
    · rw [if_neg heq, hd, hv]
      cases hcopy : d.copyable v with
      | false =>
        refine iff_of_true (by simp [hcopy]) fun d' v' hd' hv' hcopy' => ?_
        cases hd.symm.trans hd'
        cases hv.symm.trans hv'
        rw [hcopy] at hcopy'
        cases hcopy'
      | true =>
        simp only [hcopy, not_true_eq_false, if_false, hforce]
        exact ⟨fun hpart _ _ _ _ _ => hpart, fun h => h d v hd hv hcopy⟩
  | copyForce dst src =>
    obtain ⟨d, hd⟩ := Option.isSome_iff_exists.mp hg.1.2
    obtain ⟨v, hv⟩ := Option.isSome_iff_exists.mp hg.2.2
    rw [DsvOp.run, Option.isSome_map]
    exact copyForce_isSome hb hfuel hd hg.1.1 hv hg.2.1
  | freeData t =>
    obtain ⟨v, hv⟩ := Option.isSome_iff_exists.mp hg.2
    obtain ⟨h, hx⟩ := freeData_some hb hfuel hv hg.1
    exact iff_of_true (Option.isSome_iff_exists.mpr ⟨h, hx⟩) trivial

/-- An operation on values that comes back keeps the counters. -/
theorem StoreCounts.onVal (hi : StoreCounts s []) {op : DsvOp} (hx : s.onVal op = some s') :
    StoreCounts s' [] := by
  obtain ⟨h, hrun, rfl⟩ := Option.map_eq_some_iff.mp hx
  exact ⟨op_keeps hi.balanced (Finset.card_range _).le hrun, hi.lists, hi.global⟩

/-- A caller that holds a data state drops it. -/
theorem StoreCounts.release (hi : StoreCounts s []) (hds : 0 < s.holds ds) :
    ∃ s', s.release ds = some s' ∧ StoreCounts s' [] := by
  have hi₁ : StoreCounts { s with holds := Function.update s.holds ds (s.holds ds - 1) } [ds] := by
    refine ⟨hi.balanced.reroot fun d => ?_, hi.lists, hi.global⟩
    simp only [DsStore.roots, DsStore.listed]
    by_cases hd : d = ds
    · rw [hd, Function.update_self, List.count_cons_self]
      simp only [List.count_nil]
      omega
    · rw [Function.update_of_ne hd, List.count_cons_of_ne (Ne.symm hd)]
  obtain ⟨s', hx, hi', -⟩ := hi₁.drop
  exact ⟨s', by rw [DsStore.release, if_neg (Nat.ne_of_gt hds), hx], hi'⟩

/-! ## Steps and runs -/

/-- **Every operation that copies no part of what it overwrites comes back**, uses no freed memory
    and keeps the counters. -/
theorem storeCounts_step (hi : StoreCounts s []) {e : DsrEvent} (hg : CallersReach s e)
    (hcopy : CopiesApart s e) : ∃ s', dsrStep s e = some s' ∧ StoreCounts s' [] := by
  cases e with
  | rwNew addr type raw => exact ⟨_, rfl, (hi.rwNew addr type raw).addHold⟩
  | hold ds => exact hi.hold hg
  | drop ds => exact hi.release hg
  | fnlFind l addr type =>
    obtain ⟨r, hx, hi'⟩ := fnlDsFind_spec hi l addr type
    exact ⟨r.1, by rw [dsrStep, hx, Option.map_some], hi'⟩
  | fnlAdd l addr type raw linkFails =>
    obtain ⟨r, hx, hi'⟩ := fnlDsAdd_spec hi hg addr type raw linkFails
    exact ⟨r.1, by rw [dsrStep, hx, Option.map_some], hi'⟩
  | globalFind bases addr type =>
    obtain ⟨r, hx, hi'⟩ := fnlDsFind_spec (initGlobal_spec hi bases) 0 addr type
    exact ⟨r.1, by rw [dsrStep, DsStore.globalDsRwFind, hx, Option.map_some], hi'⟩
  | globalAdd bases addr type raw linkFails =>
    have hi₁ := initGlobal_spec hi bases
    obtain ⟨r, hx, hi'⟩ := fnlDsAdd_spec hi₁ hi₁.global addr type raw linkFails
    exact ⟨r.1, by rw [dsrStep, DsStore.globalDsRwAdd, hx, Option.map_some], hi'⟩
  | val op =>
    obtain ⟨h, hx⟩ := Option.isSome_iff_exists.mp ((op_isSome hi hg).mpr hcopy)
    have hval : s.onVal op = some { s with heap := h } := by
      rw [DsStore.onVal, hx, Option.map_some]
    exact ⟨_, hval, hi.onVal hval⟩
  | fnListNew bases => exact ⟨_, rfl, fnListNew_spec hi bases⟩
  | fnListFree l => exact fnListFree_spec hi hg.2 hg.1

/-- An operation that comes back is none that copies a part of what it overwrites. -/
theorem copiesApart_of_some (hi : StoreCounts s []) {e : DsrEvent} (hg : CallersReach s e)
    (hx : dsrStep s e = some s') : CopiesApart s e := by
  cases e with
  | val op =>
    obtain ⟨h, hrun, -⟩ := Option.map_eq_some_iff.mp hx
    exact (op_isSome hi hg).mp (Option.isSome_iff_exists.mpr ⟨h, hrun⟩)
  | _ => exact trivial

end Store

theorem storeCounts_empty : StoreCounts DsStore.empty [] := by
  have hroots : ∀ ds, DsStore.empty.roots ds = 0 := fun ds => rfl
  refine ⟨⟨fun ds hds => (by cases hds), fun ds c hc => (by cases hc),
    fun ds => ?_⟩, fun l hl => ?_,
    rfl⟩
  · refine ⟨fun hno => (by cases hno), fun hpos => ?_⟩
    unfold owners at hpos
    rw [hroots ds] at hpos
    exact absurd hpos (Nat.lt_irrefl 0)
  · by_cases h0 : l = 0
    · rw [h0]
      exact Nat.one_pos
    · simp only [DsStore.empty, Function.update_of_ne h0] at hl
      cases hl

/-- **The counters are right in every state of a run, and every operation of it comes back without
    using freed memory, exactly if no value is copied from a part of what it overwrites.** -/
theorem counts_exact (es : List DsrEvent) (hg : Along dsrStep CallersReach DsStore.empty es) :
    (Visits dsrStep CountsRight DsStore.empty es ∧
      Along dsrStep (fun s e => (dsrStep s e).isSome) DsStore.empty es) ↔
      Along dsrStep CopiesApart DsStore.empty es := by
  have hstep : ∀ s e s', StoreCounts s [] → CallersReach s e → dsrStep s e = some s' →
      StoreCounts s' [] := by
    intro s e s' hi hg hx
    obtain ⟨s'', hx', hi'⟩ := storeCounts_step hi hg (copiesApart_of_some hi hg hx)
    cases hx.symm.trans hx'
    exact hi'
  have hiff : ∀ s e, StoreCounts s [] → CallersReach s e →
      ((dsrStep s e).isSome ↔ CopiesApart s e) := by
    intro s e hi hg
    refine ⟨fun hsome => ?_, fun hcopy => ?_⟩
    · obtain ⟨s', hx⟩ := Option.isSome_iff_exists.mp hsome
      exact copiesApart_of_some hi hg hx
    · obtain ⟨s', hx, -⟩ := storeCounts_step hi hg hcopy
      exact Option.isSome_iff_exists.mpr ⟨s', hx⟩
  have hright : Visits dsrStep CountsRight DsStore.empty es :=
    (visits_of_along hstep storeCounts_empty hg).mono fun _ hi => hi.right
  rw [← along_congr_of_along hstep hiff storeCounts_empty hg]
  exact and_iff_right hright

/-- A reference outlives the hold on what it refers to, and takes it along in the end. -/
def referenceRun : List DsrEvent :=
  [.rwNew 16 .raw 0, .fnListNew [(⟨32, .vn⟩, 1)], .fnlAdd 1 32 .vn 1 false,
   .val (.allocSetv (dsVal 0) .ref 1 0 32), .drop 1, .fnListFree 1, .drop 0]

theorem counts_exact_reference : Visits dsrStep CountsRight DsStore.empty referenceRun ∧
    Along dsrStep (fun s e => (dsrStep s e).isSome) DsStore.empty referenceRun := by
  refine (counts_exact referenceRun ⟨trivial, fun s₁ h₁ => ?_⟩).mpr ?_
  · cases h₁
    refine ⟨trivial, fun s₂ h₂ => ?_⟩
    cases h₂
    refine ⟨rfl, fun s₃ h₃ => ?_⟩
    cases h₃
    refine ⟨⟨⟨.owned (by decide), rfl⟩, .owned (by decide)⟩, fun s₄ h₄ => ?_⟩
    cases h₄
    refine ⟨Nat.one_pos, fun s₅ h₅ => ?_⟩
    cases h₅
    refine ⟨⟨Nat.one_ne_zero, rfl⟩, fun s₆ h₆ => ?_⟩
    cases h₆
    exact ⟨Nat.one_pos, fun s₇ h₇ => trivial⟩
  · simp [referenceRun, Along, CopiesApart, DsvOp.CopyApart]

/-! ## A record that is assigned its first member -/

/-- A record of 16 bytes, whose first member is a record of 8 bytes with a member, is overwritten
    with that first member. -/
def partRun : List DsrEvent :=
  [.rwNew 16 .raw 0, .val (.alloc (dsVal 0) (.sec3 false 16)), .val (.add (dsVal 0) 1 0 64),
   .val (.alloc ⟨0, [0]⟩ (.sec3 false 8)), .val (.add ⟨0, [0]⟩ 2 0 64),
   .val (.copy (dsVal 0) ⟨0, [0]⟩)]

theorem partRun_reach : Along dsrStep CallersReach DsStore.empty partRun := by
  refine ⟨trivial, fun s₁ h₁ => ?_⟩
  cases h₁
  refine ⟨⟨.owned (by decide), rfl⟩, fun s₂ h₂ => ?_⟩
  cases h₂
  refine ⟨⟨_, _, _, _, rfl⟩, fun s₃ h₃ => ?_⟩
  cases h₃
  refine ⟨⟨.owned (by decide), rfl⟩, fun s₄ h₄ => ?_⟩
  cases h₄
  refine ⟨⟨_, _, _, _, rfl⟩, fun s₅ h₅ => ?_⟩
  cases h₅
  exact ⟨⟨⟨.owned (by decide), rfl⟩, .owned (by decide), rfl⟩, fun s₆ h₆ => trivial⟩

/-- **The member is freed before it is read.** -/
theorem part_read_when_freed : Along dsrStep CallersReach DsStore.empty partRun ∧
    ¬ (Visits dsrStep CountsRight DsStore.empty partRun ∧
      Along dsrStep (fun s e => (dsrStep s e).isSome) DsStore.empty partRun) := by
  refine ⟨partRun_reach, fun ⟨_, h⟩ => ?_⟩
  have hlast := ((((h.2 _ rfl).2 _ rfl).2 _ rfl).2 _ rfl).2 _ rfl
  exact absurd hlast.1 (by decide)

end Srcinv.Analysis
