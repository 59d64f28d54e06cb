import Srcinv.Analysis.FindSearch
import Srcinv.Lib.Parts
import Srcinv.Lib.Places
import Mathlib.Data.List.Induction
import Mathlib.Data.List.Perm.Subperm

/-!
# Finding the parts of a constructor (`dsv_find_constructor_elem`, `include/si_ds.h`)

* `Occupies`, `WellFormed` — the places of the parts of a value, and that they fit.
* `findConstructorElem_spec` — where no second way leads to the range, what the search fails on and
  what it notes, by the layout of the value.
* `DsvFindArg.listed_addAll_iff` — the results are kept exactly where there is room for them.
* `dsvFindConstructorElem_exact` — when **the call succeeds only where there is a part that is the
  range, and then lists all that are**: that the range lies in no hole, that no other part without
  members holds it, and that no second way leads to it.
-/

namespace Srcinv.Analysis

open Srcinv.Lib DataStateVal

/-! ## Parts and their places -/

/-- The element at a path, and the bit at which it starts. -/
def partAt : List Nat → DsvElem → Int → Option (DsvElem × Int)
  | [], e, pos => some (e, pos)
  | i :: path, ⟨_, _, sec3 _ _ _ v3⟩, pos =>
    v3[i]?.bind fun e => partAt path e (pos + e.offset)
  | _ :: _, _, _ => none

/-- **The part at a path is the range.** -/
def Occupies (v : DataStateVal) (offset : Int) (bits : Nat) (path : List Nat) : Prop :=
  ∃ e, partAt path (rootElem v) 0 = some (e, offset) ∧ e.bits = bits

/-- **Every constructor is as large as its place and holds its elements, those of a record or an
    array side by side.** -/
structure WellFormed (v : DataStateVal) : Prop where
  size : ∀ path e pos raw subtype total v3, partAt path (rootElem v) 0 = some (e, pos) →
    e.val = sec3 raw subtype total v3 →
    e.bits = total * BITS_PER_UNIT ∧ total * BITS_PER_UNIT < 2 ^ 32
  elems : ∀ path e pos raw subtype total v3, partAt path (rootElem v) 0 = some (e, pos) →
    e.val = sec3 raw subtype total v3 → ∀ e' ∈ v3,
      0 ≤ e'.offset ∧ e'.offset < 2 ^ 31 ∧ e'.offset + e'.bits ≤ total * BITS_PER_UNIT
  apart : ∀ path e pos raw total v3, partAt path (rootElem v) 0 = some (e, pos) →
    e.val = sec3 raw false total v3 → v3.Pairwise fun e₁ e₂ : DsvElem =>
      e₁.offset + e₁.bits ≤ e₂.offset ∨ e₂.offset + e₂.bits ≤ e₁.offset

/-- **The places are numbers of 32 bits**, and a constructor is as large as its place. -/
structure Sized (v : DataStateVal) : Prop where
  size : ∀ path e pos raw subtype total v3, partAt path (rootElem v) 0 = some (e, pos) →
    e.val = sec3 raw subtype total v3 →
    e.bits = total * BITS_PER_UNIT ∧ total * BITS_PER_UNIT < 2 ^ 32
  elems : ∀ path e pos, path ≠ [] → partAt path (rootElem v) 0 = some (e, pos) →
    0 ≤ e.offset ∧ e.offset < 2 ^ 31 ∧ e.offset + e.bits < 2 ^ 32

/-- A record and an array lie side by side, the alternatives of a union over one another. -/
def DataStateVal.partKind : DataStateVal → PartKind
  | sec3 _ subtype _ v3 => if v3.isEmpty then .empty else if subtype then .union else .product
  | _ => .leaf

/-- **The layout of a value.** -/
def DataStateVal.layout (v : DataStateVal) : Layout := fun path =>
  (partAt path (rootElem v) 0).map fun r => ⟨r.2, r.1.bits, r.1.val.partKind⟩

section Parts

variable {bits : Nat} {offset o pos : Int} {path : List Nat} {v : DataStateVal} {e e₀ : DsvElem}

theorem partAt_append (path path' : List Nat) (e : DsvElem) (pos : Int) :
    partAt (path ++ path') e pos = (partAt path e pos).bind fun r => partAt path' r.1 r.2 := by
  induction path generalizing e pos with
  | nil => rfl
  | cons i path ih =>
    obtain ⟨fieldoffset, fieldbits, val⟩ := e
    cases val with
    | sec3 raw subtype total v3 =>
      rw [List.cons_append, partAt, partAt, Option.bind_assoc]
      exact Option.bind_congr fun e' _ => ih e' _
    | _ => rfl

/-- A part that is not the whole value is an element of a constructor that is one. -/
theorem partAt_parent (hne : path ≠ []) (h : partAt path (rootElem v) 0 = some (e, pos)) :
    ∃ path' i e' pos' raw subtype total v3, path = path' ++ [i] ∧
      partAt path' (rootElem v) 0 = some (e', pos') ∧ e'.val = sec3 raw subtype total v3 ∧
        v3[i]? = some e ∧ pos = pos' + e.offset := by
  obtain ⟨path', i, rfl⟩ := (List.eq_nil_or_concat path).resolve_left hne
  rw [List.concat_eq_append] at h ⊢
  rw [partAt_append] at h
  obtain ⟨⟨⟨fieldoffset, fieldbits, val⟩, pos'⟩, hparent, hlast⟩ := Option.bind_eq_some_iff.mp h
  cases val with
  | sec3 raw subtype total v3 =>
    obtain ⟨e', helem, heq⟩ := Option.bind_eq_some_iff.mp hlast
    cases heq
    exact ⟨path', i, _, pos', raw, subtype, total, v3, rfl, hparent, rfl, helem, rfl⟩
  | _ => cases hlast

theorem layout_eq_some {p : Place} : v.layout path = some p ↔
    ∃ e pos, partAt path (rootElem v) 0 = some (e, pos) ∧ p = ⟨pos, e.bits, e.val.partKind⟩ := by
  unfold DataStateVal.layout
  rw [Option.map_eq_some_iff]
  constructor
  · rintro ⟨⟨e, pos⟩, hat, rfl⟩
    exact ⟨e, pos, hat, rfl⟩
  · rintro ⟨e, pos, hat, rfl⟩
    exact ⟨(e, pos), hat, rfl⟩

theorem layout_of_part (h : partAt path (rootElem v) 0 = some (e, pos)) :
    v.layout path = some ⟨pos, e.bits, e.val.partKind⟩ :=
  layout_eq_some.mpr ⟨e, pos, h, rfl⟩

theorem occupies_iff : Occupies v offset bits path ↔
    ∃ p, v.layout path = some p ∧ p.Is offset bits := by
  constructor
  · rintro ⟨e, hat, hbits⟩
    exact ⟨_, layout_of_part hat, rfl, hbits⟩
  · rintro ⟨p, hp, hpos, hbits⟩
    obtain ⟨e, pos, hat, rfl⟩ := layout_eq_some.mp hp
    exact ⟨e, hpos ▸ hat, hbits⟩

theorem kind_eq_leaf : v.partKind = .leaf ↔ ¬ v.isConstructor := by
  constructor
  · intro hkind hcons
    obtain ⟨raw, subtype, total, v3, rfl⟩ := isConstructor_iff.mp hcons
    unfold DataStateVal.partKind at hkind
    simp only at hkind
    split at hkind
    · cases hkind
    · split at hkind <;> cases hkind
  · intro hcons
    cases v with
    | sec3 raw subtype total v3 => exact absurd rfl hcons
    | _ => rfl

theorem kind_eq_empty : v.partKind = .empty ↔ v.isEmpty = true := by
  cases v with
  | sec3 raw subtype total v3 =>
    unfold DataStateVal.partKind DataStateVal.isEmpty
    simp only
    by_cases hempty : v3.isEmpty = true
    · simp only [hempty, if_true]
    · simp only [hempty]
      cases subtype <;> simp
  | _ => exact ⟨fun h => (by cases h), fun h => (by cases h)⟩

/-- The element `i` of a constructor that is a part. -/
theorem partAt_elem {raw total : Nat} {subtype : Bool} {v3 : List DsvElem} {i : Nat} {e' : DsvElem}
    (h : partAt path (rootElem v) 0 = some (e, pos)) (hval : e.val = sec3 raw subtype total v3)
    (helem : v3[i]? = some e') :
    partAt (path ++ [i]) (rootElem v) 0 = some (e', pos + e'.offset) := by
  obtain ⟨fieldoffset, fieldbits, val⟩ := e
  obtain rfl : val = sec3 raw subtype total v3 := hval
  rw [partAt_append, h, Option.bind_some, partAt, helem]
  rfl

theorem kind_of_elem {raw total : Nat} {subtype : Bool} {v3 : List DsvElem} {i : Nat}
    {e' : DsvElem} (hval : v = sec3 raw subtype total v3) (helem : v3[i]? = some e') :
    v.partKind = if subtype then .union else .product := by
  subst hval
  cases v3 with
  | nil => cases helem
  | cons e₁ v3 => rfl

theorem Sized.pos_nonneg (hsz : Sized v) (hpart : partAt path (rootElem v) 0 = some (e, pos)) :
    0 ≤ pos := by
  induction path using List.reverseRecOn generalizing e pos with
  | nil =>
    cases hpart
    exact Int.le_refl 0
  | append_singleton path i ih =>
    obtain ⟨hlow, -, -⟩ := hsz.elems _ e pos (by simp) hpart
    obtain ⟨path', i', e', pos', raw, subtype, total, v3, heq, hparent, -, -, rfl⟩ :=
      partAt_parent (by simp) hpart
    obtain ⟨rfl, -⟩ := List.append_inj' heq rfl
    have := ih hparent
    omega

/-- **A part is noted where it is asked for the range that it is**, unless it is a constructor
    without elements. -/
theorem Sized.hits_iff (hsz : Sized v) (hpart : partAt path (rootElem v) 0 = some (e, pos))
    (hlo : -2 ^ 31 ≤ offset - pos) (hhi : offset - pos < 2 ^ 31) :
    e.Hits (offset - pos + e.offset) bits ↔
      (offset - pos + e.offset = e.offset ∧ bits = e.bits) ∧ ¬ e.val.isEmpty = true := by
  by_cases hcons : e.val.isConstructor
  · obtain ⟨raw, subtype, total, v3, hval⟩ := isConstructor_iff.mp hcons
    obtain ⟨hsize, hlt⟩ := hsz.size path e pos raw subtype total v3 hpart hval
    have hu32 : u32 ((total * BITS_PER_UNIT : Nat) : Int) = total * BITS_PER_UNIT := by
      unfold u32
      omega
    push_cast at hu32
    unfold DsvElem.Hits
    rw [hval, Int.add_sub_cancel, s32_of_range hlo hhi]
    simp only [DataStateVal.isEmpty]
    rw [hu32, hsize, List.isEmpty_iff]
    constructor
    · rintro ⟨hne, hzero, hbits⟩
      exact ⟨⟨by omega, hbits⟩, hne⟩
    · rintro ⟨⟨hoff, hbits⟩, hne⟩
      exact ⟨hne, by omega, hbits⟩
  · rw [DsvElem.hits_other hcons, isEmpty_other hcons]
    exact (and_iff_left Bool.false_ne_true).symm

/-- What is well formed has its places in 32 bits. -/
theorem WellFormed.sized (hwf : WellFormed v) : Sized v := by
  refine ⟨hwf.size, fun path e pos hne hat => ?_⟩
  rcases partAt_parent hne hat with ⟨path', i, e', pos', raw, subtype, total, v3, -, hpart, hval,
    helem, -⟩
  obtain ⟨hlow, hhigh, hend⟩ := hwf.elems path' e' pos' raw subtype total v3 hpart hval e
    (List.mem_of_getElem? helem)
  obtain ⟨-, hlt⟩ := hwf.size path' e' pos' raw subtype total v3 hpart hval
  exact ⟨hlow, hhigh, by omega⟩

/-- Its parts lie in one another. -/
theorem WellFormed.nested (hwf : WellFormed v) : v.layout.Nested := by
  -- a part that has members is a constructor, and the member is one of its elements
  have hmember : ∀ {path i q}, v.layout (path ++ [i]) = some q →
      ∃ e pos raw subtype total v3 e', partAt path (rootElem v) 0 = some (e, pos) ∧
        e.val = sec3 raw subtype total v3 ∧ v3[i]? = some e' ∧
          q = ⟨pos + e'.offset, e'.bits, e'.val.partKind⟩ := by
    intro path i q hq
    obtain ⟨e', pos', hat, rfl⟩ := layout_eq_some.mp hq
    obtain ⟨path', i', e, pos, raw, subtype, total, v3, heq, hpart, hval, helem, rfl⟩ :=
      partAt_parent (by simp) hat
    obtain ⟨rfl, hi⟩ := List.append_inj' heq rfl
    cases hi
    exact ⟨e, pos, raw, subtype, total, v3, e', hpart, hval, helem, rfl⟩
  refine ⟨fun path i q hq => ?_, fun path i p q hp hq => ?_,
    fun path i j p q r hp hkind hlt hq hr => ?_⟩
  · obtain ⟨e, pos, -, -, -, -, -, hpart, -⟩ := hmember hq
    exact ⟨_, layout_of_part hpart⟩
  · obtain ⟨e, pos, raw, subtype, total, v3, e', hpart, hval, helem, rfl⟩ := hmember hq
    cases hp.symm.trans (layout_of_part hpart)
    obtain ⟨hlow, -, hend⟩ := hwf.elems path e pos raw subtype total v3 hpart hval e'
      (List.mem_of_getElem? helem)
    obtain ⟨hsize, -⟩ := hwf.size path e pos raw subtype total v3 hpart hval
    simp only
    rw [hsize]
    push_cast
    constructor <;> omega
  · obtain ⟨e, pos, raw, subtype, total, v3, e', hpart, hval, helem, rfl⟩ := hmember hq
    obtain ⟨e₂, pos₂, raw₂, subtype₂, total₂, w3, e'', hpart', hval', helem', rfl⟩ := hmember hr
    cases hpart.symm.trans hpart'
    cases hval.symm.trans hval'
    cases hp.symm.trans (layout_of_part hpart)
    have hsub : subtype = false := by
      rw [kind_of_elem hval helem] at hkind
      cases subtype with
      | true => cases hkind
      | false => rfl
    subst hsub
    have hpair := hwf.apart path e pos raw total v3 hpart hval
    obtain ⟨hi, rfl⟩ := List.getElem?_eq_some_iff.mp helem
    obtain ⟨hj, rfl⟩ := List.getElem?_eq_some_iff.mp helem'
    have hdis := List.pairwise_iff_getElem.mp hpair i j hi hj hlt
    simp only
    omega

end Parts

/-! ## What the search asks -/

section Asks

variable {bits : Nat} {offset o pos x : Int} {path : List Nat} {v : DataStateVal} {e e₀ : DsvElem}

/-- In 32 bits the comparison of the code is right. -/
theorem contains_iff (hlow : 0 ≤ e.offset) (hend : e.offset + e.bits < 2 ^ 32)
    (hwhole : x + bits < 2 ^ 32) :
    e.Contains x bits ↔ e.offset ≤ x ∧ x + bits ≤ e.offset + e.bits := by
  unfold DsvElem.Contains u32
  omega

/-- An offset that no alternative moves. -/
theorem runOffset_still {v3 : List DsvElem} (hlo : -2 ^ 31 ≤ x) (hhi : x < 2 ^ 31)
    (hstill : ∀ e ∈ v3, e.Contains x bits → e.val.isConstructor → e.offset = 0) :
    runOffset bits v3 x = x := by
  induction v3 with
  | nil => rfl
  | cons e v3 ih =>
    have hnext : e.next bits x = x := by
      unfold DsvElem.next
      split
      · rename_i hand
        rw [hstill e List.mem_cons_self hand.1 hand.2, Int.sub_zero]
        exact s32_of_range hlo hhi
      · rfl
    rw [runOffset, List.foldl_cons, hnext]
    exact ih fun e' he' => hstill e' (List.mem_cons_of_mem e he')

theorem mem_take {v3 : List DsvElem} {i : Nat} (h : e ∈ v3.take i) :
    ∃ j, j < i ∧ v3[j]? = some e := by
  obtain ⟨j, hj⟩ := List.getElem?_of_mem h
  obtain ⟨hlt, -⟩ := List.getElem?_eq_some_iff.mp hj
  rw [List.length_take] at hlt
  have hji : j < i := by omega
  rw [List.getElem?_take_of_lt hji] at hj
  exact ⟨j, hji, hj⟩

/-- **Where no second element leads to the range**, the loop goes into those that contain it. -/
theorem tries_iff {subtype : Bool} {v3 : List DsvElem} {i : Nat} (hlo : -2 ^ 31 ≤ x)
    (hhi : x < 2 ^ 31)
    (hone : subtype = false → ∀ j e', j < i → v3[j]? = some e' → v3[i]? = some e →
      e.Contains x bits → ¬ e'.Contains x bits)
    (hstill : subtype = true → ∀ j e', j < i → v3[j]? = some e' → v3[i]? = some e →
      e'.Contains x bits → e'.val.isConstructor → e'.offset = 0) :
    Tries subtype bits v3 x i e o ↔ v3[i]? = some e ∧ e.Contains x bits ∧ o = x := by
  have hrun : subtype = true → v3[i]? = some e → runOffset bits (v3.take i) x = x := by
    intro hs helem
    refine runOffset_still hlo hhi fun e' he' => ?_
    obtain ⟨j, hji, hj⟩ := mem_take he'
    exact hstill hs j e' hji hj helem
  constructor
  · rintro ⟨helem, hcont, hfirst, hmoved⟩
    have ho : o = x := by
      cases subtype with
      | false => exact (hfirst rfl).1
      | true => exact (hmoved rfl).trans (hrun rfl helem)
    exact ⟨helem, ho ▸ hcont, ho⟩
  · rintro ⟨helem, hcont, rfl⟩
    refine ⟨helem, hcont, fun hs => ⟨rfl, fun e' he' => ?_⟩, fun hs => (hrun hs helem).symm⟩
    obtain ⟨j, hji, hj⟩ := mem_take he'
    exact hone hs j e' hji hj helem hcont

/-- The range lies in an element of a part, in terms of the value and of its layout. -/
theorem elem_contains_iff (hsz : Sized v) (hwhole : offset + bits < 2 ^ 32) (hpos : 0 ≤ pos)
    {raw total i : Nat} {subtype : Bool} {v3 : List DsvElem}
    (h : partAt path (rootElem v) 0 = some (e₀, pos)) (hval : e₀.val = sec3 raw subtype total v3)
    (helem : v3[i]? = some e) : e.Contains (offset - pos) bits ↔
      (⟨pos + e.offset, e.bits, e.val.partKind⟩ : Place).Covers offset bits := by
  obtain ⟨hlow, -, hend⟩ := hsz.elems (path ++ [i]) e (pos + e.offset) (by simp)
    (partAt_elem h hval helem)
  rw [contains_iff hlow hend (by omega)]
  unfold Place.Covers
  simp only
  omega

theorem partAt_cons {raw total i : Nat} {subtype : Bool} {v3 : List DsvElem}
    (hval : e₀.val = sec3 raw subtype total v3) {r : DsvElem × Int} :
    partAt (i :: path) e₀ pos = some r ↔
      ∃ e₁, v3[i]? = some e₁ ∧ partAt path e₁ (pos + e₁.offset) = some r := by
  obtain ⟨fieldoffset, fieldbits, val⟩ := e₀
  obtain rfl : val = sec3 raw subtype total v3 := hval
  exact Option.bind_eq_some_iff

/-- Below a constructor the search goes on with what its loop tries. -/
theorem triedIn_cons {raw total i : Nat} {subtype : Bool} {v3 : List DsvElem}
    (hval : e₀.val = sec3 raw subtype total v3) (hx : s32 (pos - e₀.offset) = x) :
    TriedIn bits e₀ pos (i :: path) e o ↔
      ∃ e₁ o₁, Tries subtype bits v3 x i e₁ o₁ ∧ TriedIn bits e₁ o₁ path e o := by
  unfold TriedIn
  rw [hx, hval]
  constructor
  · rintro (⟨hnil, -⟩ | h)
    · cases hnil
    · exact h
  · exact Or.inr

/-- Nothing is inside of what has no parts. -/
theorem not_triedIn_cons {i : Nat} (hcons : ¬ e₀.val.isConstructor) :
    ¬ TriedIn bits e₀ x (i :: path) e o := by
  rintro (⟨hnil, -⟩ | h)
  · cases hnil
  · exact hcons (tried_constructor h).1

/-- The loop over the elements of a part of a value goes into those that contain the range. -/
theorem tries_of_straight (hsz : Sized v) (hst : v.layout.Straight offset bits)
    (hwhole : offset + bits < 2 ^ 32) (hat : partAt path (rootElem v) 0 = some (e₀, pos))
    (hpos : 0 ≤ pos) (hlo : -2 ^ 31 ≤ offset - pos) (hhi : offset - pos < 2 ^ 31)
    {raw total i : Nat} {subtype : Bool} {v3 : List DsvElem}
    (hval : e₀.val = sec3 raw subtype total v3) :
    Tries subtype bits v3 (offset - pos) i e o ↔
      v3[i]? = some e ∧ e.Contains (offset - pos) bits ∧ o = offset - pos := by
  have hplace : ∀ {j : Nat} {e' : DsvElem}, v3[j]? = some e' →
      v.layout (path ++ [j]) = some ⟨pos + e'.offset, e'.bits, e'.val.partKind⟩ :=
    fun helem => layout_of_part (partAt_elem hat hval helem)
  refine tries_iff hlo hhi (fun hs j e' hji hj hi hcont hcont' => ?_)
    fun hs j e' hji hj hi hcont hcons' => ?_
  · have hkind := kind_of_elem hval hi
    rw [hs, if_neg Bool.false_ne_true] at hkind
    exact hst.one path _ j i _ _ (layout_of_part hat) hkind hji (hplace hj) (hplace hi)
      ((elem_contains_iff hsz hwhole hpos hat hval hj).mp hcont')
      ((elem_contains_iff hsz hwhole hpos hat hval hi).mp hcont)
  · have hkind := kind_of_elem hval hi
    rw [hs, if_pos rfl] at hkind
    have hstart := hst.still path _ j i _ _ (layout_of_part hat) hkind hji (hplace hj) (hplace hi)
      ((elem_contains_iff hsz hwhole hpos hat hval hj).mp hcont)
    simp only [kind_eq_leaf] at hstart
    have := hstart.resolve_left (not_not.mpr hcons')
    omega

/-- **The search asks for the parts that hold the range**, below a part that it comes to. -/
theorem triedIn_iff (hsz : Sized v) (hst : v.layout.Straight offset bits)
    (hwhole : offset + bits < 2 ^ 32) {start : List Nat} {pos₀ : Int}
    (hat : partAt start (rootElem v) 0 = some (e₀, pos₀)) (hpos : 0 ≤ pos₀)
    (hlo : -2 ^ 31 ≤ offset - pos₀) (hhi : offset - pos₀ < 2 ^ 31) :
    TriedIn bits e₀ (offset - pos₀ + e₀.offset) path e o ↔
      (∃ pos, partAt path e₀ pos₀ = some (e, pos) ∧ o = offset - pos + e.offset) ∧
        ∀ rest, rest ≠ [] → rest <+: path →
          ∃ p, v.layout (start ++ rest) = some p ∧ p.Covers offset bits := by
  induction path generalizing start e₀ pos₀ with
  | nil =>
    constructor
    · rintro (⟨-, rfl, rfl⟩ | hbelow)
      · exact ⟨⟨pos₀, rfl, rfl⟩, fun rest hne hpre => absurd (List.prefix_nil.mp hpre) hne⟩
      · exact absurd hbelow not_tried_nil
    · rintro ⟨⟨pos, hpart, rfl⟩, -⟩
      cases hpart
      exact Or.inl ⟨rfl, rfl, rfl⟩
  | cons i path ih =>
    by_cases hcons : e₀.val.isConstructor
    · obtain ⟨raw, subtype, total, v3, hval⟩ := isConstructor_iff.mp hcons
      have hoff : s32 (offset - pos₀ + e₀.offset - e₀.offset) = offset - pos₀ := by
        rw [Int.add_sub_cancel]
        exact s32_of_range hlo hhi
      have htries : ∀ {e₁ : DsvElem} {o₁ : Int}, Tries subtype bits v3 (offset - pos₀) i e₁ o₁ ↔
          v3[i]? = some e₁ ∧ e₁.Contains (offset - pos₀) bits ∧ o₁ = offset - pos₀ :=
        tries_of_straight hsz hst hwhole hat hpos hlo hhi hval
      have hbelow : ∀ e₁ : DsvElem, v3[i]? = some e₁ → e₁.Contains (offset - pos₀) bits →
          (TriedIn bits e₁ (offset - pos₀) path e o ↔
            (∃ pos, partAt path e₁ (pos₀ + e₁.offset) = some (e, pos) ∧
              o = offset - pos + e.offset) ∧
            ∀ rest, rest ≠ [] → rest <+: path →
              ∃ p, v.layout (start ++ [i] ++ rest) = some p ∧ p.Covers offset bits) := by
        intro e₁ helem hcont
        have hat₁ := partAt_elem hat hval helem
        obtain ⟨hlow, -, -⟩ := hsz.elems _ _ _ (by simp) hat₁
        obtain ⟨hfrom, -⟩ := (elem_contains_iff hsz hwhole hpos hat hval helem).mp hcont
        have hsame : offset - (pos₀ + e₁.offset) + e₁.offset = offset - pos₀ := by omega
        have hiff := ih hat₁ (by omega) (by simp only at hfrom; omega) (by omega)
        rw [hsame] at hiff
        exact hiff
      rw [triedIn_cons hval hoff, forall_prefix_cons]
      constructor
      · rintro ⟨e₁, o₁, ht, hin⟩
        obtain ⟨helem, hcont, rfl⟩ := htries.mp ht
        obtain ⟨⟨pos, hp, ho⟩, hrest⟩ := (hbelow e₁ helem hcont).mp hin
        refine ⟨⟨pos, (partAt_cons hval).mpr ⟨e₁, helem, hp⟩, ho⟩,
          ⟨_, layout_of_part (partAt_elem hat hval helem),
            (elem_contains_iff hsz hwhole hpos hat hval helem).mp hcont⟩, fun rest hne hpre => ?_⟩
        rw [List.append_cons]
        exact hrest rest hne hpre
      · rintro ⟨⟨pos, hp, ho⟩, ⟨p, hpi, hcov⟩, hrest⟩
        obtain ⟨e₁, helem, hp⟩ := (partAt_cons hval).mp hp
        cases hpi.symm.trans (layout_of_part (partAt_elem hat hval helem))
        have hcont := (elem_contains_iff hsz hwhole hpos hat hval helem).mpr hcov
        refine ⟨e₁, _, htries.mpr ⟨helem, hcont, rfl⟩, (hbelow e₁ helem hcont).mpr
          ⟨⟨pos, hp, ho⟩, fun rest hne hpre => ?_⟩⟩
        rw [← List.append_cons]
        exact hrest rest hne hpre
    · refine iff_of_false (not_triedIn_cons hcons) ?_
      rintro ⟨⟨pos, hp, -⟩, -⟩
      obtain ⟨fieldoffset, fieldbits, val⟩ := e₀
      cases val with
      | sec3 raw subtype total v3 => exact hcons rfl
      | _ => cases hp

/-- **What the search fails on and what it notes**, by the layout of the value. -/
theorem findConstructorElem_spec (hcons : v.isConstructor) (hsz : Sized v)
    (hst : v.layout.Straight offset bits) (hwhole : offset + bits < 2 ^ 32)
    (hlo : -2 ^ 31 ≤ offset) (hhi : offset < 2 ^ 31) :
    ((v.findConstructorElem offset bits).2 = true ↔ ∃ path p, v.layout path = some p ∧
      v.layout.Holds offset bits path ∧ p.Bottom ∧ ¬ (p.kind = .leaf ∧ p.Is offset bits)) ∧
    ((v.findConstructorElem offset bits).2 = false →
      (v.findConstructorElem offset bits).1.Pairwise (· < ·) ∧
      ∀ path, path ∈ (v.findConstructorElem offset bits).1 ↔ ∃ p, v.layout path = some p ∧
        v.layout.Holds offset bits path ∧ p.Is offset bits ∧ p.kind ≠ .empty) := by
  have ha : Answers bits (SearchAsks bits v offset) (v.findConstructorElem offset bits) :=
    findConstructorElem_answers hcons hlo hhi
  have hasks : ∀ path e o, SearchAsks bits v offset path e o ↔
      (∃ pos, partAt path (rootElem v) 0 = some (e, pos) ∧ o = offset - pos + e.offset) ∧
        v.layout.Holds offset bits path := by
    intro path e o
    have hiff : TriedIn bits (rootElem v) (offset - 0 + (rootElem v).offset) path e o ↔ _ :=
      triedIn_iff hsz hst hwhole (show partAt [] (rootElem v) 0 = some (rootElem v, 0) from rfl)
        (Int.le_refl 0) (by omega) (by omega)
    rw [rootElem_offset, Int.sub_zero, Int.add_zero] at hiff
    exact hiff
  -- what is asked for is the range exactly where it lies there
  have his : ∀ {e : DsvElem} {pos : Int}, (offset - pos + e.offset = e.offset ∧ bits = e.bits) ↔
      (⟨pos, e.bits, e.val.partKind⟩ : Place).Is offset bits := by
    intro e pos
    unfold Place.Is
    simp only
    omega
  have hfails : ∀ {e : DsvElem} {pos : Int}, e.Fails (offset - pos + e.offset) bits ↔
      (⟨pos, e.bits, e.val.partKind⟩ : Place).Bottom ∧
        ¬ (e.val.partKind = .leaf ∧ (⟨pos, e.bits, e.val.partKind⟩ : Place).Is offset bits) := by
    intro e pos
    unfold DsvElem.Fails Place.Bottom
    simp only
    rw [his, kind_eq_leaf, kind_eq_empty]
    by_cases hc : e.val.isConstructor
    · simp only [hc, not_true_eq_false, false_and, or_false, false_or, not_false_eq_true, and_true]
    · simp only [hc, isEmpty_other hc, Bool.false_eq_true, not_false_eq_true, true_and, false_or,
        or_false]
  have hhits : ∀ {path : List Nat} {e : DsvElem} {pos : Int},
      partAt path (rootElem v) 0 = some (e, pos) → v.layout.Holds offset bits path →
        (e.Hits (offset - pos + e.offset) bits ↔
        (⟨pos, e.bits, e.val.partKind⟩ : Place).Is offset bits ∧ e.val.partKind ≠ .empty) := by
    intro path e pos hat hholds
    have hpos := hsz.pos_nonneg hat
    have hfrom : pos ≤ offset ∨ pos = 0 := by
      by_cases hnil : path = []
      · subst hnil
        cases hat
        exact Or.inr rfl
      · exact Or.inl (hholds.covers hnil (layout_of_part hat)).1
    rw [← his, ne_eq, kind_eq_empty]
    exact hsz.hits_iff hat (by omega) (by omega)
  refine ⟨ha.fails.trans ?_,
    fun herr => ⟨ha.sorted herr, fun path => (ha.notes herr path).trans ?_⟩⟩
  · constructor
    · rintro ⟨path, e, o, hask, hfail⟩
      obtain ⟨⟨pos, hat, rfl⟩, hholds⟩ := (hasks path e o).mp hask
      exact ⟨path, _, layout_of_part hat, hholds, hfails.mp hfail⟩
    · rintro ⟨path, p, hp, hholds, hbottom⟩
      obtain ⟨e, pos, hat, rfl⟩ := layout_eq_some.mp hp
      exact ⟨path, e, _, (hasks path e _).mpr ⟨⟨pos, hat, rfl⟩, hholds⟩, hfails.mpr hbottom⟩
  · constructor
    · rintro ⟨e, o, hask, hhit⟩
      obtain ⟨⟨pos, hat, rfl⟩, hholds⟩ := (hasks path e o).mp hask
      exact ⟨_, layout_of_part hat, hholds, (hhits hat hholds).mp hhit⟩
    · rintro ⟨p, hp, hholds, hthe⟩
      obtain ⟨e, pos, hat, rfl⟩ := layout_eq_some.mp hp
      exact ⟨e, _, (hasks path e _).mpr ⟨⟨pos, hat, rfl⟩, hholds⟩, (hhits hat hholds).mpr hthe⟩

end Asks

/-! ## The results -/

/-- What `dsv_fill` takes from a constructor, for a field (`exact` is false) or an element. -/
def fillArg (exact : Bool) (v : DataStateVal) (offset : Int) (bits : Nat) : Option DsvFindArg :=
  let (paths, err) := dsvFindConstructorElem v offset bits
  let arg := DsvFindArg.addAll paths
  if err then none
  else if exact then if arg.retCnt ≠ 1 then none else some arg
  else if arg.retCnt = 0 ∨ arg.retCnt > DSV_FIND_ARG_MAX_RESULT then none
  else some arg

/-- **The call succeeds exactly where a part is the range, and then lists all that are, each once;
    and no loop over the results goes beyond the array.** -/
structure FindRight (v : DataStateVal) (offset : Int) (bits : Nat) : Prop where
  succeeds : (dsvFindConstructorElem v offset bits).2 = false ↔
    ∃ path, Occupies v offset bits path
  lists : (dsvFindConstructorElem v offset bits).2 = false →
    (dsvFindConstructorElem v offset bits).1.Nodup ∧
    (∀ path, path ∈ (dsvFindConstructorElem v offset bits).1 ↔ Occupies v offset bits path) ∧
    (DsvFindArg.addAll (dsvFindConstructorElem v offset bits).1).listed =
      (dsvFindConstructorElem v offset bits).1
  room : ∀ arg exact, findArg v offset bits = some arg ∨ fillArg exact v offset bits = some arg →
    arg.retCnt ≤ DSV_FIND_ARG_MAX_RESULT

/-- **No second way leads to the range**, which ends below 2^32: one member of a record or an array
    holds it, and an alternative of a union that holds it starts where the union does. -/
structure OneWay (v : DataStateVal) (offset : Int) (bits : Nat) : Prop where
  whole : offset + bits < 2 ^ 32
  straight : v.layout.Straight offset bits

/-- **Where the call goes right**: a condition on the places of the parts. -/
structure FindFits (v : DataStateVal) (offset : Int) (bits : Nat) : Prop
    extends OneWay v offset bits where
  /-- Something is asked for. -/
  asked : ¬ (offset = 0 ∧ bits = 0)
  /-- A range that is no part lies inside of a part without members: it is in no hole, and does not
      reach over several members. -/
  inside : (∀ path, ¬ Occupies v offset bits path) → v.isEmpty = true ∨
    ∃ path p, path ≠ [] ∧ v.layout path = some p ∧ p.Covers offset bits ∧ p.Bottom
  /-- A range that is a part lies inside of no other part without members. -/
  alone : (∃ path, Occupies v offset bits path) → ∀ path p, v.layout path = some p →
    p.Covers offset bits → p.Bottom → p.kind = .leaf ∧ p.Is offset bits
  /-- There is room for all parts that are the range. -/
  room : ∀ l : List (List Nat), l.Nodup → (∀ path ∈ l, Occupies v offset bits path) →
    l.length ≤ DSV_FIND_ARG_MAX_RESULT

/-- In a value whose alternatives start where their union does, one way leads to every range that
    is not empty. -/
theorem WellFormed.oneWay {v : DataStateVal} {offset : Int} {bits : Nat} (hwf : WellFormed v)
    (hu : v.layout.UnionsStart) (hbits : 0 < bits) (hwhole : offset + bits < 2 ^ 32) :
    OneWay v offset bits :=
  ⟨hwhole, hwf.nested.straight hu hbits⟩

namespace DsvFindArg

theorem addAll_snoc (l : List (List Nat)) (path : List Nat) :
    addAll (l ++ [path]) = (addAll l).add path := List.foldl_append ..

/-- As long as there is room, the results are kept in order. -/
theorem addAll_spec (l : List (List Nat)) : (addAll l).retCnt = l.length % 256 ∧
    (∀ i, DSV_FIND_ARG_MAX_RESULT ≤ i → (addAll l).vals i = none) ∧
    (l.length ≤ DSV_FIND_ARG_MAX_RESULT → ∀ i, (addAll l).vals i = l[i]?) := by
  induction l using List.reverseRecOn with
  | nil => exact ⟨rfl, fun i _ => rfl, fun _ i => List.getElem?_nil.symm⟩
  | append_singleton l path ih =>
    obtain ⟨hcnt, hnone, hvals⟩ := ih
    rw [addAll_snoc]
    refine ⟨?_, fun i hi => ?_, fun hlen i => ?_⟩
    · show ((addAll l).retCnt + 1) % 256 = (l ++ [path]).length % 256
      rw [hcnt, List.length_append, List.length_singleton]
      omega
    · rw [add]
      split
      · rename_i hlt
        simp only
        rw [Function.update_of_ne (by omega)]
        exact hnone i hi
      · exact hnone i hi
    · rw [List.length_append, List.length_singleton] at hlen
      have hlt : l.length < DSV_FIND_ARG_MAX_RESULT := by omega
      have hmod : (addAll l).retCnt = l.length := by
        rw [hcnt]
        exact Nat.mod_eq_of_lt (hlt.trans (by decide))
      rw [add, if_pos (by rw [hmod]; exact hlt), hmod]
      simp only
      by_cases hi : i = l.length
      · rw [hi, Function.update_self, List.getElem?_concat_length]
      · rw [Function.update_of_ne hi, hvals hlt.le, List.getElem?_append]
        split
        · rfl
        · rename_i hge
          rw [List.getElem?_eq_none (by omega), List.getElem?_eq_none (by
            rw [List.length_singleton]
            omega)]

/-- The loops read the results exactly where there is room for them. -/
theorem listed_addAll_iff (l : List (List Nat)) :
    (addAll l).listed = l ↔ l.length ≤ DSV_FIND_ARG_MAX_RESULT := by
  obtain ⟨hcnt, hnone, hvals⟩ := addAll_spec l
  constructor
  · intro heq
    -- only the first entries are there
    have hsub : (addAll l).listed.length ≤ DSV_FIND_ARG_MAX_RESULT := by
      have hfilter : ∀ n, ((List.range n).filterMap (addAll l).vals).length ≤
          DSV_FIND_ARG_MAX_RESULT := by
        intro n
        induction n with
        | zero => exact Nat.zero_le _
        | succ n ih =>
          by_cases hn : n < DSV_FIND_ARG_MAX_RESULT
          · refine (List.length_filterMap_le ..).trans ?_
            rw [List.length_range]
            exact hn
          · rw [List.range_succ, List.filterMap_append, List.length_append]
            simp only [List.filterMap_cons, hnone n (Nat.not_lt.mp hn), List.filterMap_nil,
              List.length_nil, Nat.add_zero]
            exact ih
      exact hfilter _
    rw [heq] at hsub
    exact hsub
  · intro hlen
    have hmod : (addAll l).retCnt = l.length := by
      rw [hcnt]
      exact Nat.mod_eq_of_lt (lt_of_le_of_lt hlen (by decide))
    unfold listed
    rw [hmod, funext (hvals hlen)]
    exact Srcinv.Lib.filterMap_range l

end DsvFindArg

section Exact

variable {v : DataStateVal} {offset : Int} {bits : Nat}

/-- The loops over the results stay in the array, whatever the search gives. -/
theorem findArg_room {arg : DsvFindArg} {exact : Bool}
    (h : findArg v offset bits = some arg ∨ fillArg exact v offset bits = some arg) :
    arg.retCnt ≤ DSV_FIND_ARG_MAX_RESULT := by
  rcases h with h | h
  · unfold findArg at h
    simp only at h
    split at h
    · rename_i hnone
      cases h
      show (_ + 1) % 256 ≤ DSV_FIND_ARG_MAX_RESULT
      rw [hnone.2]
      decide
    · split at h
      · cases h
      · rename_i hle
        split at h
        · cases h
        · cases h
          omega
  · unfold fillArg at h
    simp only at h
    split at h
    · cases h
    · split at h
      · split at h
        · cases h
        · rename_i hone
          cases h
          rw [not_not.mp hone]
          decide
      · split at h
        · cases h
        · cases h
          omega

/-- The call with nothing asked for is not right: it succeeds without a result. -/
theorem FindRight.asked (hr : FindRight v offset bits) : ¬ (offset = 0 ∧ bits = 0) := by
  intro hzero
  have hnone : dsvFindConstructorElem v offset bits = ([], false) := if_pos hzero
  obtain ⟨path, hocc⟩ := hr.succeeds.mp (by rw [hnone])
  have hmem := ((hr.lists (by rw [hnone])).2.1 path).mpr hocc
  rw [hnone] at hmem
  cases hmem

/-- A part of a well-formed value that is the range holds it, and the parts around it do. -/
theorem WellFormed.holds_of_occupies (hwf : WellFormed v) {path : List Nat}
    (hocc : Occupies v offset bits path) : v.layout.Holds offset bits path := by
  obtain ⟨p, hp, his⟩ := occupies_iff.mp hocc
  by_cases hnil : path = []
  · rw [hnil]
    exact Layout.holds_nil
  · exact (hwf.nested.holds_iff hnil hp).mpr his.covers

/-- What makes the search fail, by the places alone. -/
theorem findConstructorElem_fails_iff (hcons : v.isConstructor) (hwf : WellFormed v)
    (hlo : -2 ^ 31 ≤ offset) (hhi : offset < 2 ^ 31) (hone : OneWay v offset bits) :
    (v.findConstructorElem offset bits).2 = true ↔ v.isEmpty = true ∨
      ∃ path p, path ≠ [] ∧ v.layout path = some p ∧ p.Covers offset bits ∧ p.Bottom ∧
        ¬ (p.kind = .leaf ∧ p.Is offset bits) := by
  obtain ⟨hfails, -⟩ := findConstructorElem_spec hcons hwf.sized hone.straight hone.whole hlo hhi
  have hroot : v.layout [] = some ⟨0, (rootElem v).bits, v.partKind⟩ := by
    obtain ⟨raw, subtype, total, v3, rfl⟩ := isConstructor_iff.mp hcons
    rfl
  refine hfails.trans ⟨?_, ?_⟩
  · rintro ⟨path, p, hp, hholds, hbottom, hnot⟩
    by_cases hnil : path = []
    · subst hnil
      cases hroot.symm.trans hp
      refine Or.inl (kind_eq_empty.mp (hbottom.resolve_left fun hleaf => ?_))
      exact kind_eq_leaf.mp hleaf hcons
    · exact Or.inr ⟨path, p, hnil, hp, hholds.covers hnil hp, hbottom, hnot⟩
  · rintro (hempty | ⟨path, p, hne, hp, hcov, hbottom, hnot⟩)
    · have hkind := kind_eq_empty.mpr hempty
      refine ⟨[], _, hroot, Layout.holds_nil, Or.inr hkind, fun hleaf => ?_⟩
      cases hkind.symm.trans hleaf.1
    · exact ⟨path, p, hp, (hwf.nested.holds_iff hne hp).mpr hcov, hbottom, hnot⟩

theorem findFits_of_right (hcons : v.isConstructor) (hwf : WellFormed v) (hlo : -2 ^ 31 ≤ offset)
    (hhi : offset < 2 ^ 31) (hone : OneWay v offset bits) (hr : FindRight v offset bits) :
    FindFits v offset bits := by
  have hfails := findConstructorElem_fails_iff hcons hwf hlo hhi hone
  have hcall : dsvFindConstructorElem v offset bits = v.findConstructorElem offset bits :=
    if_neg hr.asked
  have hsucc := hr.succeeds
  have hlists := hr.lists
  rw [hcall] at hsucc hlists
  refine { hone with
    asked := hr.asked
    inside := fun hno => ?_
    alone := fun hocc path p hp hcov hbottom => ?_
    room := fun l hnodup hall => ?_ }
  · have herr : (v.findConstructorElem offset bits).2 = true := by
      by_contra hok
      obtain ⟨path, hocc⟩ := hsucc.mp (Bool.eq_false_of_not_eq_true hok)
      exact hno path hocc
    rcases hfails.mp herr with hempty | ⟨path, p, hne, hp, hcov, hbottom, -⟩
    · exact Or.inl hempty
    · exact Or.inr ⟨path, p, hne, hp, hcov, hbottom⟩
  · have herr := hsucc.mpr hocc
    by_contra hnot
    rw [hfails.mpr] at herr
    · cases herr
    · by_cases hnil : path = []
      · -- the whole is a constructor, so it is an empty one
        subst hnil
        obtain ⟨e, pos, hat, rfl⟩ := layout_eq_some.mp hp
        cases hat
        have hval : (rootElem v).val = v := by
          obtain ⟨raw, subtype, total, v3, rfl⟩ := isConstructor_iff.mp hcons
          rfl
        rw [hval] at hbottom
        refine Or.inl (kind_eq_empty.mp (hbottom.resolve_left fun hleaf => ?_))
        exact kind_eq_leaf.mp hleaf hcons
      · exact Or.inr ⟨path, p, hnil, hp, hcov, hbottom, hnot⟩
  · cases l with
    | nil => exact Nat.zero_le _
    | cons path l =>
      obtain ⟨-, hmem, hlisted⟩ := hlists (hsucc.mpr ⟨path, hall path List.mem_cons_self⟩)
      have hsub := List.Nodup.subperm hnodup fun path hpath => (hmem path).mpr (hall path hpath)
      exact hsub.length_le.trans ((DsvFindArg.listed_addAll_iff _).mp hlisted)

theorem findRight_of_fits (hcons : v.isConstructor) (hwf : WellFormed v) (hlo : -2 ^ 31 ≤ offset)
    (hhi : offset < 2 ^ 31) (hf : FindFits v offset bits) : FindRight v offset bits := by
  have hfails := findConstructorElem_fails_iff hcons hwf hlo hhi hf.toOneWay
  obtain ⟨-, hnotes⟩ := findConstructorElem_spec hcons hwf.sized hf.straight hf.whole hlo hhi
  have hcall : dsvFindConstructorElem v offset bits = v.findConstructorElem offset bits :=
    if_neg hf.asked
  -- the whole has members where something is the range
  have hroot : (∃ path, Occupies v offset bits path) → ¬ v.isEmpty = true := by
    rintro ⟨path, hocc⟩ hempty
    obtain ⟨p, hp, his⟩ := occupies_iff.mp hocc
    obtain ⟨raw, subtype, total, v3, rfl⟩ := isConstructor_iff.mp hcons
    obtain rfl : v3 = [] := List.isEmpty_iff.mp hempty
    cases path with
    | nil =>
      have hleaf := hf.alone ⟨[], hocc⟩ [] p hp his.covers
      cases hp
      cases (hleaf (Or.inr rfl)).1
    | cons i path => cases hp
  have hsucc : (v.findConstructorElem offset bits).2 = false ↔
      ∃ path, Occupies v offset bits path := by
    constructor
    · intro herr
      by_contra hno
      push Not at hno
      rw [hfails.mpr] at herr
      · cases herr
      · rcases hf.inside hno with hempty | ⟨path, p, hne, hp, hcov, hbottom⟩
        · exact Or.inl hempty
        · refine Or.inr ⟨path, p, hne, hp, hcov, hbottom, fun hleaf => ?_⟩
          exact hno path (occupies_iff.mpr ⟨p, hp, hleaf.2⟩)
    · intro hocc
      by_contra herr
      rcases hfails.mp (Bool.eq_true_of_not_eq_false herr) with
        hempty | ⟨path, p, hne, hp, hcov, hbottom, hnot⟩
      · exact hroot hocc hempty
      · exact hnot (hf.alone hocc path p hp hcov hbottom)
  refine ⟨by rw [hcall]; exact hsucc, ?_, fun arg exact h => findArg_room h⟩
  rw [hcall]
  intro herr
  obtain ⟨hsorted, hmem⟩ := hnotes herr
  have hocc := hsucc.mp herr
  have hnodup : (v.findConstructorElem offset bits).1.Nodup := by
    refine hsorted.imp ?_
    rintro path path' hlt rfl
    exact List.lt_irrefl path hlt
  have hall : ∀ path, path ∈ (v.findConstructorElem offset bits).1 ↔
      Occupies v offset bits path := by
    intro path
    rw [hmem path, occupies_iff]
    constructor
    · rintro ⟨p, hp, -, his, -⟩
      exact ⟨p, hp, his⟩
    · rintro ⟨p, hp, his⟩
      refine ⟨p, hp, hwf.holds_of_occupies (occupies_iff.mpr ⟨p, hp, his⟩), his, fun hempty => ?_⟩
      cases hempty.symm.trans (hf.alone hocc path p hp his.covers (Or.inr hempty)).1
  exact ⟨hnodup, hall, (DsvFindArg.listed_addAll_iff _).mpr
    (hf.room _ hnodup fun path hpath => (hall path).mp hpath)⟩

/-- **The call goes right where the range is a part and lies inside of no other part without
    members, or is none and lies inside of one**, at most 16 parts are the range and no second way
    leads to it; and where no second way leads to the range, nowhere else. -/
theorem dsvFindConstructorElem_exact (hcons : v.isConstructor) (hwf : WellFormed v)
    (hlo : -2 ^ 31 ≤ offset) (hhi : offset < 2 ^ 31) :
    (FindFits v offset bits → FindRight v offset bits) ∧
      (OneWay v offset bits → FindRight v offset bits → FindFits v offset bits) :=
  ⟨findRight_of_fits hcons hwf hlo hhi, findFits_of_right hcons hwf hlo hhi⟩

end Exact

/-! ## Flat values -/

/-- A constructor of values without parts is well formed when it holds them. -/
theorem wellFormed_flat {raw total : Nat} {subtype : Bool} {v3 : List DsvElem}
    (hflat : ∀ e ∈ v3, ¬ e.val.isConstructor) (hlt : total * BITS_PER_UNIT < 2 ^ 32)
    (hin : ∀ e ∈ v3, 0 ≤ e.offset ∧ e.offset < 2 ^ 31 ∧
      e.offset + e.bits ≤ total * BITS_PER_UNIT)
    (hapart : subtype = false → v3.Pairwise fun e₁ e₂ : DsvElem =>
      e₁.offset + e₁.bits ≤ e₂.offset ∨ e₂.offset + e₂.bits ≤ e₁.offset) :
    WellFormed (sec3 raw subtype total v3) := by
  have hroot : ∀ path e pos, partAt path (rootElem (sec3 raw subtype total v3)) 0 = some (e, pos) →
      e.val.isConstructor → e = rootElem (sec3 raw subtype total v3) := by
    intro path e pos hat hcons
    cases path with
    | nil =>
      cases hat
      rfl
    | cons i path =>
      obtain ⟨⟨fieldoffset, fieldbits, val⟩, helem, hat⟩ := Option.bind_eq_some_iff.mp hat
      have hnot := hflat _ (List.mem_of_getElem? helem)
      cases path with
      | nil =>
        cases hat
        exact absurd hcons hnot
      | cons j path =>
        cases val with
        | sec3 raw' subtype' total' v3' => exact absurd rfl hnot
        | _ => cases hat
  refine ⟨fun path e pos raw' subtype' total' v3' hat hval => ?_,
    fun path e pos raw' subtype' total' v3' hat hval => ?_,
    fun path e pos raw' total' v3' hat hval => ?_⟩
  all_goals
    obtain rfl := hroot path e pos hat (by rw [hval]; rfl)
    cases hval
  · exact ⟨rfl, hlt⟩
  · exact hin
  · exact hapart rfl

/-- An integer of some bytes in a constructor. -/
def intElem (offset : Int) (bytes : Nat) : DsvElem :=
  ⟨offset, bytes * BITS_PER_UNIT, sec1 0 .intCst (List.replicate bytes 0)⟩

/-- Two integers, and bits between them that are of none. -/
def holeRecord : DataStateVal := sec3 0 false 16 [intElem 0 4, intElem 64 8]

/-- An integer and its first byte. -/
def byteUnion : DataStateVal := sec3 0 true 8 [intElem 0 8, intElem 0 1]

theorem wellFormed_holeRecord : WellFormed holeRecord := by
  refine wellFormed_flat (fun e he => ?_) (by decide) (fun e he => ?_) fun _ => ?_
  · simp only [List.mem_cons, List.not_mem_nil, or_false] at he
    rcases he with rfl | rfl <;> exact fun h => by cases h
  · simp only [List.mem_cons, List.not_mem_nil, or_false] at he
    rcases he with rfl | rfl <;> decide
  · decide

theorem wellFormed_byteUnion : WellFormed byteUnion := by
  refine wellFormed_flat (fun e he => ?_) (by decide) (fun e he => ?_) fun h => by cases h
  · simp only [List.mem_cons, List.not_mem_nil, or_false] at he
    rcases he with rfl | rfl <;> exact fun h => by cases h
  · simp only [List.mem_cons, List.not_mem_nil, or_false] at he
    rcases he with rfl | rfl <;> decide

/-- Two integers side by side, as one alternative, and one that is as large, as the other. -/
def halves : DsvElem := ⟨0, 64, sec3 0 false 8 [intElem 0 4, intElem 32 4]⟩

/-- An integer, and a union after it. -/
def unionRecord : DataStateVal :=
  sec3 0 false 16 [intElem 0 8, ⟨64, 64, sec3 0 true 8 [intElem 0 8, halves]⟩]

/-- All its parts. -/
theorem unionRecord_parts {path : List Nat} {e : DsvElem} {pos : Int}
    (h : partAt path (rootElem unionRecord) 0 = some (e, pos)) :
    (path = [] ∧ e = rootElem unionRecord ∧ pos = 0) ∨ (path = [0] ∧ e = intElem 0 8 ∧ pos = 0) ∨
      (path = [1] ∧ e = ⟨64, 64, sec3 0 true 8 [intElem 0 8, halves]⟩ ∧ pos = 64) ∨
      (path = [1, 0] ∧ e = intElem 0 8 ∧ pos = 64) ∨ (path = [1, 1] ∧ e = halves ∧ pos = 64) ∨
      (path = [1, 1, 0] ∧ e = intElem 0 4 ∧ pos = 64) ∨
      (path = [1, 1, 1] ∧ e = intElem 32 4 ∧ pos = 96) := by
  match path, h with
  | [], h => cases h; simp [intElem, halves]
  | [0], h => cases h; simp [intElem, halves]
  | [1], h => cases h; simp [intElem, halves]
  | [1, 0], h => cases h; simp [intElem, halves]
  | [1, 1], h => cases h; simp [intElem, halves]
  | [1, 1, 0], h => cases h; simp [intElem, halves]
  | [1, 1, 1], h => cases h; simp [intElem, halves]
  | 0 :: _ :: _, h => cases h
  | (_ + 2) :: _, h => cases h
  | 1 :: 0 :: _ :: _, h => cases h
  | 1 :: (_ + 2) :: _, h => cases h
  | 1 :: 1 :: 0 :: _ :: _, h => cases h
  | 1 :: 1 :: 1 :: _ :: _, h => cases h
  | 1 :: 1 :: (_ + 2) :: _, h => cases h

theorem wellFormed_unionRecord : WellFormed unionRecord := by
  refine ⟨fun path e pos raw subtype total v3 hat hval => ?_,
    fun path e pos raw subtype total v3 hat hval => ?_,
    fun path e pos raw total v3 hat hval => ?_⟩
  all_goals
    rcases unionRecord_parts hat with ⟨-, rfl, -⟩ | ⟨-, rfl, -⟩ | ⟨-, rfl, -⟩ | ⟨-, rfl, -⟩ |
      ⟨-, rfl, -⟩ | ⟨-, rfl, -⟩ | ⟨-, rfl, -⟩ <;> cases hval
  · exact ⟨rfl, by decide⟩
  · exact ⟨rfl, by decide⟩
  · exact ⟨rfl, by decide⟩
  all_goals decide

theorem unionsStart_unionRecord : unionRecord.layout.UnionsStart := by
  intro path i p q hp hkind hq
  obtain ⟨e, pos, hat, rfl⟩ := layout_eq_some.mp hp
  rcases unionRecord_parts hat with ⟨-, rfl, -⟩ | ⟨-, rfl, -⟩ | ⟨rfl, rfl, rfl⟩ | ⟨-, rfl, -⟩ |
    ⟨-, rfl, -⟩ | ⟨-, rfl, -⟩ | ⟨-, rfl, -⟩ <;> try cases hkind
  match i, hq with
  | 0, hq => cases hq; rfl
  | 1, hq => cases hq; rfl
  | _ + 2, hq => cases hq

/-- The union is found, and both of its alternatives. -/
theorem dsvFindConstructorElem_exact_union : FindRight unionRecord 64 64 ∧
    dsvFindConstructorElem unionRecord 64 64 = ([[1], [1, 0], [1, 1]], false) := by
  have hone : OneWay unionRecord 64 64 :=
    wellFormed_unionRecord.oneWay unionsStart_unionRecord (by decide) (by decide)
  have hocc : Occupies unionRecord 64 64 [1] := ⟨_, rfl, rfl⟩
  have hall : ∀ path, Occupies unionRecord 64 64 path → path ∈ [[1], [1, 0], [1, 1]] := by
    rintro path ⟨e, hat, hbits⟩
    rcases unionRecord_parts hat with ⟨-, rfl, hpos⟩ | ⟨-, -, hpos⟩ | ⟨rfl, -⟩ | ⟨rfl, -⟩ |
      ⟨rfl, -⟩ | ⟨-, rfl, -⟩ | ⟨-, -, hpos⟩
    · cases hpos
    · cases hpos
    · decide
    · decide
    · decide
    · cases hbits
    · cases hpos
  have hf : FindFits unionRecord 64 64 := by
    refine { hone with asked := by decide, inside := ?_, alone := ?_, room := ?_ }
    · intro hno
      exact absurd hocc (hno [1])
    · rintro - path p hp hcov hbottom
      obtain ⟨e, pos, hat, rfl⟩ := layout_eq_some.mp hp
      unfold Place.Covers at hcov
      rcases unionRecord_parts hat with ⟨-, rfl, rfl⟩ | ⟨-, rfl, rfl⟩ | ⟨-, rfl, rfl⟩ |
        ⟨-, rfl, rfl⟩ | ⟨-, rfl, rfl⟩ | ⟨-, rfl, rfl⟩ | ⟨-, rfl, rfl⟩
      · rcases hbottom with h | h <;> cases h
      · exact absurd hcov (by decide)
      · rcases hbottom with h | h <;> cases h
      · exact ⟨rfl, rfl, rfl⟩
      · rcases hbottom with h | h <;> cases h
      · exact absurd hcov (by decide)
      · exact absurd hcov (by decide)
    · intro l hnodup hmem
      exact (hnodup.subperm fun path hpath => hall path (hmem path hpath)).length_le.trans
        (by decide)
  exact ⟨(dsvFindConstructorElem_exact (v := unionRecord) rfl wellFormed_unionRecord (by decide)
      (by decide)).1 hf,
    by decide⟩

/-- **A range in the hole is found without a result, and the byte is not found for the integer
    before it.** -/
theorem hole_found_byte_lost :
    WellFormed holeRecord ∧ ¬ FindRight holeRecord 32 32 ∧
      WellFormed byteUnion ∧ ¬ FindRight byteUnion 0 8 := by
  refine ⟨wellFormed_holeRecord, fun hr => ?_, wellFormed_byteUnion, fun hr => ?_⟩
  · have herr : dsvFindConstructorElem holeRecord 32 32 = ([], false) := by decide
    obtain ⟨path, hocc⟩ := hr.succeeds.mp (by rw [herr])
    have hmem := ((hr.lists (by rw [herr])).2.1 path).mpr hocc
    rw [herr] at hmem
    cases hmem
  · have herr : (dsvFindConstructorElem byteUnion 0 8).2 = true := by decide
    rw [hr.succeeds.mpr ⟨[1], intElem 0 1, rfl, rfl⟩] at herr
    cases herr

end Srcinv.Analysis
