import Srcinv.Analysis.Assign

/-!
# Places of values, and integers with their sign bits set

What is seen of a heap at one place after a value was put at another, and what `dsv_extend` changes:
the bytes of an integer, and neither the node of a value nor where a constructor is.

* `DataStateVal.map_set` — a value that is no constructor is put without a change around it.
* `dsvExtend_get`, `dsvExtend_ne` — what `dsv_extend` leaves at a place.
-/

namespace Srcinv.Analysis

open Srcinv.Lib

/-! ## Values in place -/

namespace DataStateVal

/-- Whether a value is a constructor, and whether one of a union. -/
def kind : DataStateVal → Option Bool
  | sec3 _ subtype _ _ => some subtype
  | _ => none

theorem copyable_eq (d s : DataStateVal) : copyable d s = (d.kind = s.kind : Bool) := by
  cases d <;> cases s <;> simp [copyable, kind]

theorem kind_of_type {v : DataStateVal} (hv : v.type ≠ .constructor) : v.kind = none := by
  cases v with
  | sec3 raw subtype total v3 => exact absurd rfl hv
  | _ => rfl

/-- A value that is no constructor has no parts. -/
theorem path_nil {v u : DataStateVal} (hv : v.kind = none) {path : List Nat}
    (hu : v.get? path = some u) : path = [] := by
  cases path with
  | nil => rfl
  | cons i path =>
    cases v with
    | sec3 raw subtype total v3 => cases hv
    | _ => cases hu

/-- What is put for a value that is no constructor changes nothing that is seen without looking
    into the elements. -/
theorem map_set {β : Type} (f : DataStateVal → β)
    (hf : ∀ raw subtype total v3 v3', f (sec3 raw subtype total v3) =
      f (sec3 raw subtype total v3'))
    {path path' : List Nat} {v u w : DataStateVal} (hu : v.get? path = some u)
    (hkind : u.kind = none) (hwkind : w.kind = none) (hw : f w = f u) :
    ((v.set path w).get? path').map f = (v.get? path').map f := by
  induction path generalizing v path' with
  | nil =>
    cases hu
    cases path' with
    | nil => exact congrArg some hw
    | cons j path' =>
      cases u with
      | sec3 raw subtype total v3 => cases hkind
      | _ => cases w with
        | sec3 raw subtype total v3 => cases hwkind
        | _ => rfl
  | cons i path ih =>
    cases v with
    | sec3 raw subtype total v3 =>
      obtain ⟨e, he, hu⟩ := Option.bind_eq_some_iff.mp hu
      cases path' with
      | nil => exact congrArg some (hf ..)
      | cons j path' =>
        by_cases hij : i = j
        · subst hij
          simp only [set, get?, List.getElem?_modify_eq, he]
          exact ih hu
        · simp only [set, get?, List.getElem?_modify, hij, if_false, id_map']
    | _ => cases hu

/-- What is put back is a change of nothing. -/
theorem set_get? {path : List Nat} {v u : DataStateVal} (hu : v.get? path = some u) :
    v.set path u = v := by
  induction path generalizing v with
  | nil =>
    cases hu
    rfl
  | cons i path ih =>
    cases v with
    | sec3 raw subtype total v3 =>
      obtain ⟨e, he, hu⟩ := Option.bind_eq_some_iff.mp hu
      have hsame : v3.modify i (fun e => { e with val := e.val.set path u }) = v3 := by
        refine List.ext_getElem? fun j => ?_
        rw [List.getElem?_modify]
        by_cases hij : i = j
        · subst hij
          simp only [he, if_true, Option.map_eq_map, Option.map_some, ih hu]
        · simp only [hij, if_false, id_map']
      rw [set, hsame]
    | _ => cases hu

end DataStateVal

/-! ## The heap -/

namespace DsHeap

variable {h : DsHeap} {t u : DsvLoc} {v w x : DataStateVal}

theorem get?_set (hv : h.get? t = some v) (w : DataStateVal) : (h.set t w).get? t = some w := by
  unfold DsHeap.get? DsHeap.set
  rw [Function.update_self]
  exact DataStateVal.get?_set hv w

theorem get?_set_apart (hu : ¬ t.Overlaps u) (w : DataStateVal) :
    (h.set t w).get? u = h.get? u := by
  unfold DsHeap.get? DsHeap.set
  by_cases hds : u.ds = t.ds
  · rw [hds, Function.update_self]
    refine DataStateVal.get?_set_of_apart (fun hp => ?_) (fun hp => ?_) _ w
    · exact hu ⟨hds.symm, Or.inl hp⟩
    · exact hu ⟨hds.symm, Or.inr hp⟩
  · rw [Function.update_of_ne hds]

/-- What is below a value is a part of it. -/
theorem get?_below (ht : h.get? t = some v) (hds : t.ds = u.ds) {path : List Nat}
    (hpath : t.path ++ path = u.path) : h.get? u = v.get? path := by
  unfold DsHeap.get? at ht ⊢
  rw [← hds, ← hpath, DataStateVal.get?_append, ht]
  rfl

/-- Two values that are no constructors are one or apart. -/
theorem eq_of_overlaps (ht : h.get? t = some v) (hu : h.get? u = some w) (hv : v.kind = none)
    (hw : w.kind = none) (hover : t.Overlaps u) : t = u := by
  obtain ⟨hds, ⟨path, hpath⟩ | ⟨path, hpath⟩⟩ := hover
  · obtain rfl := DataStateVal.path_nil hv ((get?_below ht hds hpath).symm.trans hu)
    obtain ⟨ds, path'⟩ := t
    obtain ⟨ds', path''⟩ := u
    obtain rfl : ds = ds' := hds
    obtain rfl : path' = path'' := by simpa using hpath
    rfl
  · obtain rfl := DataStateVal.path_nil hw ((get?_below hu hds.symm hpath).symm.trans ht)
    obtain ⟨ds, path'⟩ := t
    obtain ⟨ds', path''⟩ := u
    obtain rfl : ds = ds' := hds
    obtain rfl : path'' = path' := by simpa using hpath
    rfl

/-- A write to a value that is no constructor leaves the others of that kind. -/
theorem get?_set_ne (ht : h.get? t = some v) (hu : h.get? u = some w) (hv : v.kind = none)
    (hw : w.kind = none) (hne : t ≠ u) (x : DataStateVal) : (h.set t x).get? u = some w :=
  (get?_set_apart (fun hover => hne (eq_of_overlaps ht hu hv hw hover)) x).trans hu

theorem map_set {β : Type} (f : DataStateVal → β)
    (hf : ∀ raw subtype total v3 v3', f (.sec3 raw subtype total v3) =
      f (.sec3 raw subtype total v3'))
    (ht : h.get? t = some v) (hv : v.kind = none) (hw : w.kind = none) (hfw : f w = f v)
    (u : DsvLoc) : ((h.set t w).get? u).map f = (h.get? u).map f := by
  unfold DsHeap.get? DsHeap.set
  by_cases hds : u.ds = t.ds
  · rw [hds, Function.update_self]
    exact DataStateVal.map_set f hf ht hv hw hfw
  · rw [Function.update_of_ne hds]

/-- The values have the types that they had. -/
def SameTypes (h h' : DsHeap) : Prop :=
  ∀ t, (h'.get? t).map DataStateVal.type = (h.get? t).map DataStateVal.type

/-- The same values are constructors, and of unions. -/
def SameKinds (h h' : DsHeap) : Prop :=
  ∀ t, (h'.get? t).map DataStateVal.kind = (h.get? t).map DataStateVal.kind

theorem sameTypes_set (ht : h.get? t = some v) (hv : v.kind = none) (hw : w.kind = none)
    (htype : w.type = v.type) : SameTypes h (h.set t w) :=
  map_set _ (fun _ _ _ _ _ => rfl) ht hv hw htype

theorem sameKinds_set (ht : h.get? t = some v) (hv : v.kind = none) (hw : w.kind = none) :
    SameKinds h (h.set t w) :=
  map_set _ (fun _ _ _ _ _ => rfl) ht hv hw (hw.trans hv.symm)

end DsHeap

open DsHeap

theorem dsvArgFind_congr {h h' : DsHeap} (htype : SameTypes h h') (arg : List DsvLoc)
    (type : DsvType) : dsvArgFind h' arg type = dsvArgFind h arg type := by
  have htype : ∀ t, (h'.get? t).map DataStateVal.type = (h.get? t).map DataStateVal.type := htype
  unfold dsvArgFind
  simp only [htype]

/-- What is found is there, and of the type. -/
theorem dsvArgFind_spec {h : DsHeap} {arg : List DsvLoc} {type : DsvType} {t : DsvLoc}
    (ht : dsvArgFind h arg type = some t) : ∃ v, h.get? t = some v ∧ v.type = type := by
  have hfind := List.find?_some ht
  rw [decide_eq_true_iff, Option.map_eq_some_iff] at hfind
  exact hfind

theorem eq_intCst {v : DataStateVal} (hv : v.type = .intCst) :
    ∃ raw v1, v = .sec1 raw .intCst v1 := by
  cases v with
  | sec1 raw type v1 =>
    cases type with
    | intCst => exact ⟨raw, v1, rfl⟩
    | realCst => cases hv
  | sec2 raw type v2 => cases type <;> cases hv
  | _ => cases hv

theorem eq_addr {v : DataStateVal} (hv : v.type = .addr) : ∃ raw v2, v = .sec2 raw .addr v2 := by
  cases v with
  | sec1 raw type v1 => cases type <;> cases hv
  | sec2 raw type v2 =>
    cases type with
    | addr => exact ⟨raw, v2, rfl⟩
    | ref => cases hv
  | _ => cases hv

theorem dsvArgFind_int {h : DsHeap} {arg : List DsvLoc} {t : DsvLoc}
    (ht : dsvArgFind h arg .intCst = some t) :
    ∃ raw v1, h.get? t = some (.sec1 raw .intCst v1) := by
  obtain ⟨v, hv, htype⟩ := dsvArgFind_spec ht
  obtain ⟨raw, v1, rfl⟩ := eq_intCst htype
  exact ⟨raw, v1, hv⟩

/-! ## Extended integers -/

variable (A : AssignEnv)

/-- A value as an operator reads it. -/
def extendVal : DataStateVal → DataStateVal
  | .sec1 raw .intCst v1 => .sec1 raw .intCst (extendBytes (A.ext raw) v1)
  | v => v

theorem extendBytes_idem (i : ExtendInfo) (bytes : List Nat) :
    extendBytes i (extendBytes i bytes) = extendBytes i bytes := by
  by_cases hset : i.signed ∧ (bytesNat bytes).testBit i.msbPos
  · have hone : extendBytes i bytes = spell bytes.length (bytesNat bytes ||| i.mask : Nat) := by
      unfold extendBytes
      rw [if_pos hset]
    rw [hone]
    unfold extendBytes
    split
    · rw [length_spell, spell_eq_iff]
      have hnat : bytesNat (spell bytes.length (bytesNat bytes ||| i.mask : Nat)) =
          (bytesNat bytes ||| i.mask) % 2 ^ (8 * bytes.length) := by
        have := bytesNat_spell bytes.length (bytesNat bytes ||| i.mask : Nat)
        rw [pow_mul]
        exact_mod_cast this
      have hpow : (256 : Int) ^ bytes.length = ((2 ^ (8 * bytes.length) : Nat) : Int) := by
        rw [pow_mul]
        norm_cast
      rw [hnat, hpow]
      norm_cast
      rw [Nat.or_mod_two_pow, Nat.mod_mod, ← Nat.or_mod_two_pow, Nat.or_assoc, Nat.or_self]
    · rfl
  · have hsame : extendBytes i bytes = bytes := by
      unfold extendBytes
      rw [if_neg hset]
    rw [hsame, hsame]

@[simp] theorem length_extendBytes (i : ExtendInfo) (bytes : List Nat) :
    (extendBytes i bytes).length = bytes.length := by
  unfold extendBytes
  split
  · exact length_spell ..
  · rfl

/-- Only zero is extended to zero. -/
theorem extendBytes_eq_zero (i : ExtendInfo) (bytes : List Nat) :
    bytesNat (extendBytes i bytes) = 0 ↔ bytesNat bytes = 0 := by
  unfold extendBytes
  split
  · rename_i hset
    refine iff_of_false (fun hzero => ?_) fun hzero => ?_
    · have hspell := bytesNat_spell bytes.length (bytesNat bytes ||| i.mask : Nat)
      rw [hzero] at hspell
      have hmod : (bytesNat bytes ||| i.mask) % 2 ^ (8 * bytes.length) = 0 := by
        rw [pow_mul]
        exact_mod_cast hspell.symm
      rw [Nat.or_mod_two_pow, Nat.or_eq_zero_iff] at hmod
      have hlt := bytesNat_lt bytes
      rw [show (256 : Nat) = 2 ^ 8 from rfl, ← pow_mul] at hlt
      rw [Nat.mod_eq_of_lt hlt] at hmod
      rw [hmod.1, Nat.zero_testBit] at hset
      exact absurd hset.2 Bool.false_ne_true
    · rw [hzero, Nat.zero_testBit] at hset
      exact absurd hset.2 Bool.false_ne_true
  · rfl

theorem extendVal_idem (v : DataStateVal) : extendVal A (extendVal A v) = extendVal A v := by
  cases v with
  | sec1 raw type v1 =>
    cases type with
    | intCst => simp only [extendVal, extendBytes_idem]
    | realCst => rfl
  | _ => rfl

theorem extendVal_type (v : DataStateVal) : (extendVal A v).type = v.type := by
  cases v with
  | sec1 raw type v1 => cases type <;> rfl
  | _ => rfl

theorem extendVal_kind (v : DataStateVal) : (extendVal A v).kind = v.kind := by
  cases v with
  | sec1 raw type v1 => cases type <;> rfl
  | _ => rfl

theorem extendVal_raw (v : DataStateVal) : (extendVal A v).raw = v.raw := by
  cases v with
  | sec1 raw type v1 => cases type <;> rfl
  | _ => rfl

variable {A} {h : DsHeap} {t u : DsvLoc} {v w : DataStateVal}

theorem dsvExtend_eq (ht : h.get? t = some v) : dsvExtend A h t = h.set t (extendVal A v) := by
  have hself : h.set t v = h := by
    unfold DsHeap.set
    rw [DataStateVal.set_get? ht]
    exact Function.update_eq_self t.ds h
  unfold dsvExtend
  rw [ht]
  cases v with
  | sec1 raw type v1 =>
    cases type with
    | intCst => rfl
    | realCst => exact hself.symm
  | _ => exact hself.symm

theorem dsvExtend_types (ht : h.get? t = some v) : SameTypes h (dsvExtend A h t) := by
  by_cases hv : v.kind = none
  · rw [dsvExtend_eq ht]
    exact sameTypes_set ht hv ((extendVal_kind A v).trans hv) (extendVal_type A v)
  · have hself : dsvExtend A h t = h := by
      unfold dsvExtend
      rw [ht]
      cases v with
      | sec3 raw subtype total v3 => rfl
      | _ => exact absurd rfl hv
    rw [hself]
    exact fun u => rfl

theorem dsvExtend_get (ht : h.get? t = some v) :
    (dsvExtend A h t).get? t = some (extendVal A v) := by
  rw [dsvExtend_eq ht]
  exact get?_set ht _

theorem dsvExtend_ne (ht : h.get? t = some v) (hu : h.get? u = some w) (hv : v.kind = none)
    (hw : w.kind = none) (hne : t ≠ u) : (dsvExtend A h t).get? u = some w := by
  rw [dsvExtend_eq ht]
  exact get?_set_ne ht hu hv hw hne _

/-- After both operands of a statement are extended each is read as it was, extended. -/
theorem extend_two {r1 r2 : DsvLoc} (h1 : h.get? r1 = some v) (h2 : h.get? r2 = some w)
    (hv : v.kind = none) (hw : w.kind = none) :
    (dsvExtend A (dsvExtend A h r1) r2).get? r1 = some (extendVal A v) ∧
      (dsvExtend A (dsvExtend A h r1) r2).get? r2 = some (extendVal A w) := by
  have hv' : (extendVal A v).kind = none := (extendVal_kind A v).trans hv
  have hone := dsvExtend_get (A := A) h1
  by_cases hne : r1 = r2
  · subst hne
    obtain rfl : v = w := Option.some.inj (h1.symm.trans h2)
    have htwo := dsvExtend_get (A := A) hone
    rw [extendVal_idem] at htwo
    exact ⟨htwo, htwo⟩
  · have hother := dsvExtend_ne (A := A) h1 h2 hv hw hne
    exact ⟨dsvExtend_ne hother hone hw hv' fun heq => hne heq.symm, dsvExtend_get hother⟩

theorem dsvExtend_raw (ht : h.get? t = some v) (hu : h.get? u = some w) (hv : v.kind = none)
    (hw : w.kind = none) :
    ∃ x, (dsvExtend A h t).get? u = some x ∧ x.raw = w.raw ∧ x.kind = none := by
  by_cases hne : t = u
  · subst hne
    obtain rfl : v = w := Option.some.inj (ht.symm.trans hu)
    exact ⟨_, dsvExtend_get ht, extendVal_raw A v, (extendVal_kind A v).trans hv⟩
  · exact ⟨w, dsvExtend_ne ht hu hv hw hne, rfl, hw⟩

theorem extend_two_raw {l r1 r2 : DsvLoc} {x : DataStateVal} (hl : h.get? l = some x)
    (h1 : h.get? r1 = some v) (h2 : h.get? r2 = some w) (hx : x.kind = none) (hv : v.kind = none)
    (hw : w.kind = none) :
    ∃ y, (dsvExtend A (dsvExtend A h r1) r2).get? l = some y ∧ y.raw = x.raw ∧ y.kind = none := by
  obtain ⟨y, hy, hyraw, hykind⟩ := dsvExtend_raw (A := A) h1 hl hv hx
  obtain ⟨w', hw', -, hwkind⟩ := dsvExtend_raw (A := A) h1 h2 hv hw
  obtain ⟨z, hz, hzraw, hzkind⟩ := dsvExtend_raw (A := A) hw' hy hwkind hykind
  exact ⟨z, hz, hzraw.trans hyraw, hzkind⟩

end Srcinv.Analysis
