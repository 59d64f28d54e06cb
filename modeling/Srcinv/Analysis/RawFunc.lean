import Srcinv.Analysis.DsCount
import Srcinv.Analysis.FindSearch
import Srcinv.Lib.Chain
import Mathlib.Data.Finset.Prod
import Mathlib.Data.Int.Interval

/-!
# The function behind a pointer (`get_dsv_raw_func`, `analysis/gcc/c.cc`)

The callee of an indirect call is looked for by following addresses and references from a data
state, through the members of constructors (`get_ds_sec3_data`), until a data state of a function
is there.  The loop holds the data state that it is at.

* `getDsSec3Data_ends_iff` — the search for a member comes back exactly where no constructor inside
  the one searched has a hole at the offset: `flag` is 1 from the first of them on.
* `findsLeaf_iff`, `solid_iff_of_laidOut` — when it gives the leaf at the offset, by where the
  elements lie.
* `getDsvRawFunc_exact` — **the loop ends, with all counters as they were, exactly when the pointers
  that it follows run into no cycle, no hole and no null pointer.**
-/

namespace Srcinv.Analysis.RawFunc

open Srcinv.Lib DataStateVal

/-! ## The member at an offset -/

/-- The offset is in the element, as the code compares them: the end of the element is a sum in
    32 bits. -/
def Covers (e : DsvElem) (offset : Int) : Prop :=
  ¬ (offset < e.offset ∨ u32 (e.offset + e.bits) ≤ u32 offset)

instance (e : DsvElem) (offset : Int) : Decidable (Covers e offset) := by
  unfold Covers
  infer_instance

/-- The element that the loop over the elements stops at. -/
def firstAt (v3 : List DsvElem) (offset : Int) : Option (Nat × DsvElem) := do
  let i ← v3.findIdx? fun e => decide (Covers e offset)
  let e ← v3[i]?
  some (i, e)

/-- `get_ds_sec3_data` on a constructor with the elements `v3`: the path of the value that it
    returns, and `*offset`.  `flag` says whether it is 1; nothing sets it back. -/
def getDsSec3Data : Nat → Bool → List DsvElem → Int → Option (Option (List Nat) × Int)
  | 0, _, _, _ => none
  | fuel + 1, flag, v3, offset =>
    match firstAt v3 offset with
    | none => if flag then getDsSec3Data fuel flag v3 offset else some (none, offset)
    | some (i, e) =>
      match e.val with
      | sec3 _ _ _ w3 =>
        (getDsSec3Data fuel true w3 (s32 (offset - e.offset))).map fun r =>
          (r.1.map (i :: ·), r.2)
      | _ => some (some [i], s32 (offset - e.offset))

/-- The element `i` is the first one that covers the offset. -/
structure Takes (v3 : List DsvElem) (offset : Int) (i : Nat) (e : DsvElem) : Prop where
  elem : v3[i]? = some e
  covers : Covers e offset
  first : ∀ j e', j < i → v3[j]? = some e' → ¬ Covers e' offset

/-- The elements taken one inside the other, along a path; `o` is the offset in the last one. -/
inductive Along : List DsvElem → Int → List Nat → DsvElem → Int → Prop
  | last {v3 : List DsvElem} {offset : Int} {i : Nat} {e : DsvElem}
      (ht : Takes v3 offset i e) : Along v3 offset [i] e (s32 (offset - e.offset))
  | inside {v3 w3 : List DsvElem} {offset o : Int} {i raw total : Nat} {subtype : Bool}
      {path : List Nat} {e₀ e : DsvElem} (ht : Takes v3 offset i e₀)
      (hval : e₀.val = sec3 raw subtype total w3)
      (hrest : Along w3 (s32 (offset - e₀.offset)) path e o) : Along v3 offset (i :: path) e o

/-- **The leaves of a constructor**: the path of each, where it starts, counted from the start of
    the constructor, and its bits. -/
inductive LeafAt : List DsvElem → List Nat → Int → Nat → Prop
  | last {v3 : List DsvElem} {i : Nat} {e : DsvElem} (he : v3[i]? = some e)
      (hleaf : ¬ e.val.isConstructor) : LeafAt v3 [i] e.offset e.bits
  | inside {v3 w3 : List DsvElem} {i raw total bits : Nat} {subtype : Bool} {path : List Nat}
      {e : DsvElem} {start : Int} (he : v3[i]? = some e)
      (hval : e.val = sec3 raw subtype total w3) (hrest : LeafAt w3 path start bits) :
      LeafAt v3 (i :: path) (e.offset + start) bits

/-- The bits of the leaf at a path contain the offset. -/
def LeafContains (v3 : List DsvElem) (path : List Nat) (offset : Int) : Prop :=
  ∃ start bits, LeafAt v3 path start bits ∧ start ≤ offset ∧ offset < start + bits

/-- **What the search is for**: it comes back, with the leaf whose bits contain the offset, or with
    NULL when there is none. -/
def FindsLeaf (v3 : List DsvElem) (offset : Int) : Prop :=
  ∃ fuel r, getDsSec3Data fuel false v3 offset = some r ∧
    match r.1 with
    | some path => LeafContains v3 path offset
    | none => ∀ path, ¬ LeafContains v3 path offset

/-- No element of a constructor that is gone into covers the rest of the offset. -/
def HasHole (v3 : List DsvElem) (offset : Int) : Prop :=
  ∃ path e o raw subtype total w3, Along v3 offset path e o ∧
    e.val = sec3 raw subtype total w3 ∧ ∀ e' ∈ w3, ¬ Covers e' o

/-- The offset is in the element. -/
def IsAt (e : DsvElem) (offset : Int) : Prop :=
  e.offset ≤ offset ∧ offset < e.offset + e.bits

/-- **The offset is in a hole of a constructor inside**: in the first element that it is in there is
    a constructor, and it is in no element of that, or in a hole of a constructor further inside. -/
inductive InHole : List DsvElem → Int → Prop
  | here {v3 w3 : List DsvElem} {offset : Int} {i raw total : Nat} {subtype : Bool} {e : DsvElem}
      (he : v3[i]? = some e) (hat : IsAt e offset)
      (hfirst : ∀ j e', j < i → v3[j]? = some e' → ¬ IsAt e' offset)
      (hval : e.val = sec3 raw subtype total w3)
      (hno : ∀ e' ∈ w3, ¬ IsAt e' (offset - e.offset)) : InHole v3 offset
  | inside {v3 w3 : List DsvElem} {offset : Int} {i raw total : Nat} {subtype : Bool} {e : DsvElem}
      (he : v3[i]? = some e) (hat : IsAt e offset)
      (hfirst : ∀ j e', j < i → v3[j]? = some e' → ¬ IsAt e' offset)
      (hval : e.val = sec3 raw subtype total w3) (hrest : InHole w3 (offset - e.offset)) :
      InHole v3 offset

/-- No element starts before its constructor, and none ends past 2^32 of it. -/
inductive SizedElems : List DsvElem → Prop
  | mk {v3 : List DsvElem} (hin : ∀ e ∈ v3, 0 ≤ e.offset ∧ e.offset + e.bits < 2 ^ 32)
      (hinside : ∀ e ∈ v3, ∀ raw subtype total w3, e.val = sec3 raw subtype total w3 →
        SizedElems w3) : SizedElems v3

/-- **When the search gives what it is for**: a condition on where the elements lie. -/
structure Solid (v3 : List DsvElem) (offset : Int) : Prop where
  sized : SizedElems v3
  filled : ¬ InHole v3 offset
  /-- A leaf that the offset is in lies in an element that it is in. -/
  around : ∀ path, LeafContains v3 path offset → ∃ e ∈ v3, IsAt e offset

/-! ## The search -/

section Search

variable {v3 w3 : List DsvElem} {offset o : Int} {i fuel : Nat} {e e' : DsvElem}
  {path : List Nat} {flag : Bool}

theorem firstAt_eq_some : firstAt v3 offset = some (i, e) ↔ Takes v3 offset i e := by
  unfold firstAt
  constructor
  · intro h
    obtain ⟨k, hk, h⟩ := Option.bind_eq_some_iff.mp h
    obtain ⟨e', he', h⟩ := Option.bind_eq_some_iff.mp h
    cases h
    obtain ⟨hlt, hcov, hfirst⟩ := List.findIdx?_eq_some_iff_getElem.mp hk
    rw [List.getElem?_eq_getElem hlt, Option.some.injEq] at he'
    refine ⟨by rw [List.getElem?_eq_getElem hlt, he'], ?_, fun j e'' hj he'' => ?_⟩
    · rw [← he']
      exact of_decide_eq_true hcov
    · obtain ⟨hjlt, rfl⟩ := List.getElem?_eq_some_iff.mp he''
      exact fun hc => hfirst j hj (decide_eq_true hc)
  · intro ht
    obtain ⟨hlt, he⟩ := List.getElem?_eq_some_iff.mp ht.elem
    have hk : v3.findIdx? (fun e => decide (Covers e offset)) = some i := by
      refine List.findIdx?_eq_some_iff_getElem.mpr ⟨hlt, ?_, fun j hj hc => ?_⟩
      · rw [he]
        exact decide_eq_true ht.covers
      · exact ht.first j _ hj (List.getElem?_eq_getElem (hj.trans hlt)) (of_decide_eq_true hc)
    rw [hk, Option.bind_eq_bind, Option.bind_some, ht.elem]
    rfl

theorem firstAt_eq_none : firstAt v3 offset = none ↔ ∀ e ∈ v3, ¬ Covers e offset := by
  constructor
  · intro h e he hc
    have hsome : (v3.findIdx? fun e => decide (Covers e offset)).isSome := by
      rw [List.findIdx?_isSome, List.any_eq_true]
      exact ⟨e, he, decide_eq_true hc⟩
    obtain ⟨k, hk⟩ := Option.isSome_iff_exists.mp hsome
    obtain ⟨hlt, -, -⟩ := List.findIdx?_eq_some_iff_getElem.mp hk
    unfold firstAt at h
    rw [hk, Option.bind_eq_bind, Option.bind_some, List.getElem?_eq_getElem hlt] at h
    cases h
  · intro hno
    cases h : firstAt v3 offset with
    | none => rfl
    | some p =>
      have ht := firstAt_eq_some.mp h
      exact absurd ht.covers (hno p.2 (List.mem_of_getElem? ht.elem))

/-- The ways on from a constructor: no element, a leaf, or a constructor inside. -/
theorem search_cases (v3 : List DsvElem) (offset : Int) : (∀ e ∈ v3, ¬ Covers e offset) ∨
    (∃ i e, Takes v3 offset i e ∧ ¬ e.val.isConstructor) ∨
    ∃ i e raw subtype total w3, Takes v3 offset i e ∧ e.val = sec3 raw subtype total w3 := by
  cases h : firstAt v3 offset with
  | none => exact Or.inl (firstAt_eq_none.mp h)
  | some p =>
    have ht := firstAt_eq_some.mp h
    by_cases hc : p.2.val.isConstructor
    · obtain ⟨raw, subtype, total, w3, hval⟩ := isConstructor_iff.mp hc
      exact Or.inr (Or.inr ⟨p.1, p.2, raw, subtype, total, w3, ht, hval⟩)
    · exact Or.inr (Or.inl ⟨p.1, p.2, ht, hc⟩)

theorem getDsSec3Data_nothing (hno : ∀ e ∈ v3, ¬ Covers e offset) (fuel : Nat) (flag : Bool) :
    getDsSec3Data (fuel + 1) flag v3 offset =
      if flag then getDsSec3Data fuel flag v3 offset else some (none, offset) := by
  rw [getDsSec3Data, firstAt_eq_none.mpr hno]

theorem getDsSec3Data_leaf (ht : Takes v3 offset i e) (hleaf : ¬ e.val.isConstructor) (fuel : Nat)
    (flag : Bool) : getDsSec3Data (fuel + 1) flag v3 offset =
      some (some [i], s32 (offset - e.offset)) := by
  rw [getDsSec3Data, firstAt_eq_some.mpr ht]
  cases hval : e.val with
  | sec3 raw subtype total w3 =>
    exact absurd (isConstructor_iff.mpr ⟨raw, subtype, total, w3, hval⟩) hleaf
  | _ => simp only [hval]

theorem getDsSec3Data_inside (ht : Takes v3 offset i e) {raw total : Nat} {subtype : Bool}
    (hval : e.val = sec3 raw subtype total w3) (fuel : Nat) (flag : Bool) :
    getDsSec3Data (fuel + 1) flag v3 offset =
      (getDsSec3Data fuel true w3 (s32 (offset - e.offset))).map fun r =>
        (r.1.map (i :: ·), r.2) := by
  rw [getDsSec3Data, firstAt_eq_some.mpr ht]
  simp only [hval]

/-- More fuel changes nothing. -/
theorem getDsSec3Data_succ {r : Option (List Nat) × Int}
    (h : getDsSec3Data fuel flag v3 offset = some r) :
    getDsSec3Data (fuel + 1) flag v3 offset = some r := by
  induction fuel generalizing flag v3 offset r with
  | zero => cases h
  | succ fuel ih =>
    obtain hno | ⟨i, e, ht, hleaf⟩ | ⟨i, e, raw, subtype, total, w3, ht, hval⟩ :=
      search_cases v3 offset
    · rw [getDsSec3Data_nothing hno] at h ⊢
      cases flag with
      | true => exact ih h
      | false => exact h
    · rw [getDsSec3Data_leaf ht hleaf] at h ⊢
      exact h
    · rw [getDsSec3Data_inside ht hval] at h ⊢
      obtain ⟨r', hr', rfl⟩ := Option.map_eq_some_iff.mp h
      rw [ih hr', Option.map_some]

theorem getDsSec3Data_mono {fuel' : Nat} {r : Option (List Nat) × Int}
    (h : getDsSec3Data fuel flag v3 offset = some r) (hle : fuel ≤ fuel') :
    getDsSec3Data fuel' flag v3 offset = some r := by
  induction hle with
  | refl => exact h
  | step _ ih => exact getDsSec3Data_succ ih

theorem getDsSec3Data_unique {fuel' : Nat} {r r' : Option (List Nat) × Int}
    (h : getDsSec3Data fuel flag v3 offset = some r)
    (h' : getDsSec3Data fuel' flag v3 offset = some r') : r = r' :=
  Option.some.inj ((getDsSec3Data_mono h (Nat.le_max_left fuel fuel')).symm.trans
    (getDsSec3Data_mono h' (Nat.le_max_right fuel fuel')))

/-- **Once it is in a constructor, a hole keeps the loop going.** -/
theorem getDsSec3Data_hole (hno : ∀ e ∈ v3, ¬ Covers e offset) (fuel : Nat) :
    getDsSec3Data fuel true v3 offset = none := by
  induction fuel with
  | zero => rfl
  | succ fuel ih =>
    rw [getDsSec3Data_nothing hno, if_pos rfl]
    exact ih

/-- A leaf that the loop stops at, and nothing else, is what it returns. -/
theorem getDsSec3Data_some_iff : (∃ fuel, getDsSec3Data fuel flag v3 offset = some (some path, o)) ↔
    ∃ e, Along v3 offset path e o ∧ ¬ e.val.isConstructor := by
  constructor
  · rintro ⟨fuel, h⟩
    induction fuel generalizing flag v3 offset path with
    | zero => cases h
    | succ fuel ih =>
      obtain hno | ⟨i, e, ht, hleaf⟩ | ⟨i, e, raw, subtype, total, w3, ht, hval⟩ :=
        search_cases v3 offset
      · rw [getDsSec3Data_nothing hno] at h
        cases flag with
        | true => exact ih h
        | false => cases h
      · rw [getDsSec3Data_leaf ht hleaf] at h
        cases h
        exact ⟨e, .last ht, hleaf⟩
      · rw [getDsSec3Data_inside ht hval] at h
        obtain ⟨⟨path', o'⟩, hr, heq⟩ := Option.map_eq_some_iff.mp h
        cases path' with
        | none => cases heq
        | some path' =>
          cases heq
          obtain ⟨e', hrest, hleaf⟩ := ih hr
          exact ⟨e', .inside ht hval hrest, hleaf⟩
  · rintro ⟨e, ha, hleaf⟩
    induction ha generalizing flag with
    | last ht => exact ⟨1, getDsSec3Data_leaf ht hleaf 0 flag⟩
    | inside ht hval _ ih =>
      obtain ⟨fuel, hr⟩ : ∃ fuel, getDsSec3Data fuel true _ _ = _ := ih hleaf
      refine ⟨fuel + 1, ?_⟩
      rw [getDsSec3Data_inside ht hval, hr]
      rfl

/-- NULL is returned of the constructor itself only. -/
theorem getDsSec3Data_none_iff : (∃ fuel, getDsSec3Data fuel flag v3 offset = some (none, o)) ↔
    flag = false ∧ o = offset ∧ ∀ e ∈ v3, ¬ Covers e offset := by
  constructor
  · rintro ⟨fuel, h⟩
    induction fuel generalizing flag v3 offset with
    | zero => cases h
    | succ fuel ih =>
      obtain hno | ⟨i, e, ht, hleaf⟩ | ⟨i, e, raw, subtype, total, w3, ht, hval⟩ :=
        search_cases v3 offset
      · rw [getDsSec3Data_nothing hno] at h
        cases flag with
        | true => exact ih h
        | false =>
          cases h
          exact ⟨rfl, rfl, hno⟩
      · rw [getDsSec3Data_leaf ht hleaf] at h
        cases h
      · rw [getDsSec3Data_inside ht hval] at h
        obtain ⟨⟨path', o'⟩, hr, heq⟩ := Option.map_eq_some_iff.mp h
        cases path' with
        | none =>
          cases heq
          obtain ⟨hflag, -⟩ := ih hr
          cases hflag
        | some path' => cases heq
  · rintro ⟨rfl, rfl, hno⟩
    exact ⟨1, getDsSec3Data_nothing hno 0 false⟩

/-- The loop does not come back from a hole. -/
theorem getDsSec3Data_of_hole (h : HasHole v3 offset) (fuel : Nat) (flag : Bool) :
    getDsSec3Data fuel flag v3 offset = none := by
  obtain ⟨path, e, o, raw, subtype, total, w3, ha, hval, hno⟩ := h
  induction ha generalizing fuel flag with
  | last ht =>
    cases fuel with
    | zero => rfl
    | succ fuel =>
      rw [getDsSec3Data_inside ht hval, getDsSec3Data_hole hno]
      rfl
  | inside ht hval₀ _ ih =>
    cases fuel with
    | zero => rfl
    | succ fuel =>
      rw [getDsSec3Data_inside ht hval₀, ih fuel true hval hno]
      rfl

theorem sizeOf_inside {raw total : Nat} {subtype : Bool} (he : v3[i]? = some e)
    (hval : e.val = sec3 raw subtype total w3) : sizeOf w3 < sizeOf v3 := by
  have hmem := List.sizeOf_lt_of_mem (List.mem_of_getElem? he)
  cases e
  cases hval
  simp only [DataStateVal1.mk.sizeOf_spec, sec3.sizeOf_spec] at hmem
  omega

theorem HasHole.inside {raw total : Nat} {subtype : Bool} (ht : Takes v3 offset i e)
    (hval : e.val = sec3 raw subtype total w3) (h : HasHole w3 (s32 (offset - e.offset))) :
    HasHole v3 offset := by
  obtain ⟨path, e', o, raw', subtype', total', u3, ha, hval', hno⟩ := h
  exact ⟨i :: path, e', o, raw', subtype', total', u3, .inside ht hval ha, hval', hno⟩

/-- **Where there is no hole, the loop comes to a leaf** if it takes an element at all: what it goes
    into gets smaller. -/
theorem leaf_of_no_hole (hno : ¬ HasHole v3 offset) (hcov : ∃ e ∈ v3, Covers e offset) :
    ∃ path e o, Along v3 offset path e o ∧ ¬ e.val.isConstructor := by
  induction hn : sizeOf v3 using Nat.strong_induction_on generalizing v3 offset with
  | h n ih =>
    obtain hnone | ⟨i, e, ht, hleaf⟩ | ⟨i, e, raw, subtype, total, w3, ht, hval⟩ :=
      search_cases v3 offset
    · obtain ⟨e, he, hc⟩ := hcov
      exact absurd hc (hnone e he)
    · exact ⟨[i], e, _, .last ht, hleaf⟩
    · have hcov' : ∃ e' ∈ w3, Covers e' (s32 (offset - e.offset)) := by
        by_contra hno'
        push Not at hno'
        exact hno ⟨[i], e, _, raw, subtype, total, w3, .last ht, hval, hno'⟩
      obtain ⟨path, e', o, ha, hleaf⟩ := ih (sizeOf w3) (hn ▸ sizeOf_inside ht.elem hval)
        (fun hh => hno (hh.inside ht hval)) hcov' rfl
      exact ⟨i :: path, e', o, .inside ht hval ha, hleaf⟩

/-- **The search comes back exactly where no constructor inside has a hole.** -/
theorem getDsSec3Data_ends_iff :
    (∃ fuel r, getDsSec3Data fuel false v3 offset = some r) ↔ ¬ HasHole v3 offset := by
  constructor
  · rintro ⟨fuel, r, h⟩ hhole
    rw [getDsSec3Data_of_hole hhole] at h
    cases h
  · intro hno
    by_cases hcov : ∃ e ∈ v3, Covers e offset
    · obtain ⟨path, e, o, ha, hleaf⟩ := leaf_of_no_hole hno hcov
      obtain ⟨fuel, h⟩ := getDsSec3Data_some_iff.mpr ⟨e, ha, hleaf⟩
      exact ⟨fuel, _, h⟩
    · push Not at hcov
      obtain ⟨fuel, h⟩ := getDsSec3Data_none_iff.mpr ⟨rfl, rfl, hcov⟩
      exact ⟨fuel, _, h⟩

/-! ## Where the elements lie -/

/-- In 32 bits the comparison of the code is right. -/
theorem covers_iff (h0 : 0 ≤ e.offset) (hend : e.offset + e.bits < 2 ^ 32)
    (hlo : -2 ^ 31 ≤ offset) (hhi : offset < 2 ^ 31) : Covers e offset ↔ IsAt e offset := by
  unfold Covers IsAt u32
  omega

theorem takes_iff (hv : SizedElems v3) (hlo : -2 ^ 31 ≤ offset) (hhi : offset < 2 ^ 31) :
    Takes v3 offset i e ↔ v3[i]? = some e ∧ IsAt e offset ∧
      ∀ j e', j < i → v3[j]? = some e' → ¬ IsAt e' offset := by
  obtain ⟨hin, -⟩ := hv
  have hcov : ∀ {j : Nat} {e' : DsvElem}, v3[j]? = some e' →
      (Covers e' offset ↔ IsAt e' offset) := by
    intro j e' he'
    obtain ⟨h0, hend⟩ := hin e' (List.mem_of_getElem? he')
    exact covers_iff h0 hend hlo hhi
  constructor
  · rintro ⟨helem, hat, hfirst⟩
    exact ⟨helem, (hcov helem).mp hat, fun j e' hj he' hat' => hfirst j e' hj he'
      ((hcov he').mpr hat')⟩
  · rintro ⟨helem, hat, hfirst⟩
    exact ⟨helem, (hcov helem).mpr hat, fun j e' hj he' hat' => hfirst j e' hj he'
      ((hcov he').mp hat')⟩

theorem hasHole_of_inHole (h : InHole v3 offset) (hv : SizedElems v3) (hlo : -2 ^ 31 ≤ offset)
    (hhi : offset < 2 ^ 31) : HasHole v3 offset := by
  induction h with
  | here he hat hfirst hval hno =>
    have ht := (takes_iff hv hlo hhi).mpr ⟨he, hat, hfirst⟩
    obtain ⟨hin, hinside⟩ := hv
    obtain ⟨h0, -⟩ := hin _ (List.mem_of_getElem? he)
    obtain ⟨hin', -⟩ := hinside _ (List.mem_of_getElem? he) _ _ _ _ hval
    obtain ⟨hfrom, -⟩ := hat
    refine ⟨_, _, _, _, _, _, _, .last ht, hval, fun e' he' hc => hno e' he' ?_⟩
    rw [s32_of_range (by omega) (by omega)] at hc
    exact (covers_iff (hin' e' he').1 (hin' e' he').2 (by omega) (by omega)).mp hc
  | inside he hat hfirst hval _ ih =>
    have ht := (takes_iff hv hlo hhi).mpr ⟨he, hat, hfirst⟩
    obtain ⟨hin, hinside⟩ := hv
    obtain ⟨h0, -⟩ := hin _ (List.mem_of_getElem? he)
    obtain ⟨hfrom, -⟩ := hat
    refine HasHole.inside ht hval ?_
    rw [s32_of_range (by omega) (by omega)]
    exact ih (hinside _ (List.mem_of_getElem? he) _ _ _ _ hval) (by omega) (by omega)

theorem inHole_of_hasHole (h : HasHole v3 offset) (hv : SizedElems v3) (hlo : -2 ^ 31 ≤ offset)
    (hhi : offset < 2 ^ 31) : InHole v3 offset := by
  obtain ⟨path, e, o, raw, subtype, total, w3, ha, hval, hno⟩ := h
  induction ha with
  | last ht =>
    obtain ⟨he, hat, hfirst⟩ := (takes_iff hv hlo hhi).mp ht
    obtain ⟨hin, hinside⟩ := hv
    obtain ⟨h0, -⟩ := hin _ (List.mem_of_getElem? he)
    obtain ⟨hin', -⟩ := hinside _ (List.mem_of_getElem? he) _ _ _ _ hval
    refine .here he hat hfirst hval fun e' he' hat' => hno e' he' ?_
    obtain ⟨hfrom, -⟩ := hat
    rw [s32_of_range (by omega) (by omega)]
    exact (covers_iff (hin' e' he').1 (hin' e' he').2 (by omega) (by omega)).mpr hat'
  | inside ht hval₀ _ ih =>
    obtain ⟨he, hat, hfirst⟩ := (takes_iff hv hlo hhi).mp ht
    obtain ⟨hin, hinside⟩ := hv
    obtain ⟨h0, -⟩ := hin _ (List.mem_of_getElem? he)
    have hfrom := hat.1
    rw [s32_of_range (by omega) (by omega)] at ih
    exact .inside he hat hfirst hval₀ (ih (hinside _ (List.mem_of_getElem? he) _ _ _ _ hval₀)
      (by omega) (by omega) hval hno)

/-- A leaf that the loop stops at contains the offset. -/
theorem leafContains_of_along (ha : Along v3 offset path e o) (hleaf : ¬ e.val.isConstructor)
    (hv : SizedElems v3) (hlo : -2 ^ 31 ≤ offset) (hhi : offset < 2 ^ 31) :
    LeafContains v3 path offset := by
  induction ha with
  | last ht =>
    obtain ⟨he, ⟨hfrom, hto⟩, -⟩ := (takes_iff hv hlo hhi).mp ht
    exact ⟨_, _, .last he hleaf, hfrom, hto⟩
  | inside ht hval _ ih =>
    obtain ⟨he, ⟨hfrom, hto⟩, -⟩ := (takes_iff hv hlo hhi).mp ht
    obtain ⟨hin, hinside⟩ := hv
    have hmem := List.mem_of_getElem? he
    obtain ⟨h0, hend⟩ := hin _ hmem
    -- what is left of the offset is a number of 32 bits again
    rw [s32_of_range (by omega) (by omega)] at ih
    obtain ⟨start, bits, hl, hstart, hstop⟩ :=
      ih hleaf (hinside _ hmem _ _ _ _ hval) (by omega) (by omega)
    exact ⟨_, bits, .inside he hval hl, by omega, by omega⟩

/-- No element compares as covering the offset exactly where it is in none. -/
theorem uncovered_iff (hv : SizedElems v3) (hlo : -2 ^ 31 ≤ offset) (hhi : offset < 2 ^ 31) :
    (∀ e ∈ v3, ¬ Covers e offset) ↔ ¬ ∃ e ∈ v3, IsAt e offset := by
  obtain ⟨hin, -⟩ := hv
  constructor
  · rintro hno ⟨e, he, hat⟩
    exact hno e he ((covers_iff (hin e he).1 (hin e he).2 hlo hhi).mpr hat)
  · intro hno e he hc
    exact hno ⟨e, he, (covers_iff (hin e he).1 (hin e he).2 hlo hhi).mp hc⟩

/-- **The search gives the leaf at the offset, or tells that there is none, exactly where no
    constructor inside has a hole there and no leaf sticks out of the elements.** -/
theorem findsLeaf_iff (hv : SizedElems v3) (hlo : -2 ^ 31 ≤ offset) (hhi : offset < 2 ^ 31) :
    FindsLeaf v3 offset ↔ Solid v3 offset := by
  have hnone := uncovered_iff hv hlo hhi
  constructor
  · rintro ⟨fuel, ⟨path, o⟩, h, hright⟩
    refine ⟨hv, fun hhole => ?_, fun path' hleaf => ?_⟩
    · rw [getDsSec3Data_of_hole (hasHole_of_inHole hhole hv hlo hhi)] at h
      cases h
    · by_contra hno
      obtain ⟨fuel', h'⟩ := getDsSec3Data_none_iff.mpr ⟨rfl, rfl, hnone.mpr hno⟩
      cases getDsSec3Data_unique h h'
      exact hright path' hleaf
  · rintro ⟨-, hfilled, haround⟩
    obtain ⟨fuel, ⟨path, o⟩, h⟩ := getDsSec3Data_ends_iff.mpr fun hhole =>
      hfilled (inHole_of_hasHole hhole hv hlo hhi)
    refine ⟨fuel, _, h, ?_⟩
    cases path with
    | none =>
      obtain ⟨-, -, hno⟩ := getDsSec3Data_none_iff.mp ⟨fuel, h⟩
      exact fun path hleaf => hnone.mp hno (haround path hleaf)
    | some path =>
      obtain ⟨e, ha, hleaf⟩ := getDsSec3Data_some_iff.mp ⟨fuel, h⟩
      exact leafContains_of_along ha hleaf hv hlo hhi

/-! ## Elements that lie in one another -/

/-- The elements of a constructor of `size` bits lie in it, and so do those inside. -/
inductive LaidOut : Nat → List DsvElem → Prop
  | mk {size : Nat} {v3 : List DsvElem}
      (hin : ∀ e ∈ v3, 0 ≤ e.offset ∧ e.offset + e.bits ≤ size)
      (hinside : ∀ e ∈ v3, ∀ raw subtype total w3, e.val = sec3 raw subtype total w3 →
        LaidOut e.bits w3) : LaidOut size v3

theorem LaidOut.sized {size : Nat} (hv : LaidOut size v3) (hsize : size < 2 ^ 32) :
    SizedElems v3 := by
  induction hv with
  | mk hin _ ih =>
    refine .mk (fun e he => ?_) fun e he raw subtype total w3 hval => ?_
    · obtain ⟨h0, hend⟩ := hin e he
      exact ⟨h0, by omega⟩
    · obtain ⟨h0, hend⟩ := hin e he
      exact ih e he raw subtype total w3 hval (by omega)

theorem LeafAt.in_constructor {size bits : Nat} {start : Int} (hl : LeafAt v3 path start bits)
    (hv : LaidOut size v3) : 0 ≤ start ∧ start + bits ≤ size := by
  induction hl generalizing size with
  | last he _ =>
    obtain ⟨hin, -⟩ := hv
    exact hin _ (List.mem_of_getElem? he)
  | inside he hval _ ih =>
    obtain ⟨hin, hinside⟩ := hv
    have hmem := List.mem_of_getElem? he
    have hlast := ih (hinside _ hmem _ _ _ _ hval)
    have hfirst := hin _ hmem
    omega

/-- **In a constructor whose elements lie in one another, only a hole keeps the search from what it
    is for.** -/
theorem solid_iff_of_laidOut {size : Nat} (hv : LaidOut size v3) (hsize : size < 2 ^ 32) :
    Solid v3 offset ↔ ¬ InHole v3 offset := by
  refine ⟨Solid.filled, fun hno => ⟨hv.sized hsize, hno, ?_⟩⟩
  rintro path ⟨start, bits, hl, hstart, hstop⟩
  obtain ⟨hin, hinside⟩ := hv
  cases hl with
  | last he _ => exact ⟨_, List.mem_of_getElem? he, hstart, hstop⟩
  | inside he hval hrest =>
    have hmem := List.mem_of_getElem? he
    have hlast := hrest.in_constructor (hinside _ hmem _ _ _ _ hval)
    exact ⟨_, hmem, by omega, by omega⟩

end Search

/-! ## Following the pointers -/

section Nodes

variable (fnNode : Nat → Nat) (isFuncDecl : Nat → Bool)

/-- The check of `ref_type`: what is returned if that ends the loop.  `fnNode` reads the node of a
    `func_node` and `isFuncDecl` the code of a tree; only `DSRT_FN` is followed. -/
def checkRefType (refType : DsRefType) (base : DsBase) : Option Nat :=
  match refType with
  | .fn =>
    match base.refType with
    | .fn => some (fnNode base.refBase)
    | .raw => if isFuncDecl base.refBase then some base.refBase else none
    | .vn => none
  | _ => some 0

/-- `dsvr`, if the loop goes on. -/
def nextRef (fuel : Nat) (val : DataStateVal) (offset : Int) : Option (Option DataStateValRef) :=
  match val with
  | sec2 _ _ v2 => some (some v2)
  | sec3 _ _ _ v3 =>
    (getDsSec3Data fuel false v3 offset).map fun r =>
      match r.1.bind (get? · val) with
      | some (sec2 _ _ v2) => some v2
      | _ => none
  | _ => some none

/-- The loop of `get_dsv_raw_func`.  It gives `none` where the memory of a data state is read that
    is not there, as it is of a null pointer. -/
def rawFuncLoop (refType : DsRefType) : Nat → RwHeap → Option Nat → Int → Option (RwHeap × Nat)
  | 0, _, _, _ => none
  | fuel + 1, h, ds, offset =>
    match ds.bind h with
    | none => none
    | some c =>
      match checkRefType fnNode isFuncDecl refType c.val.base with
      | some ret => (h.dsDrop (fuel + 1) ds).map (·, ret)
      | none =>
        match nextRef (fuel + 1) c.val.val offset with
        | none => none
        | some none => (h.dsDrop (fuel + 1) ds).map (·, 0)
        | some (some v2) =>
          ((h.dsHold v2.ds).bind (RwHeap.dsDrop (fuel + 1) · ds)).bind fun h' =>
            rawFuncLoop refType fuel h' v2.ds (s32 v2.offset)

/-- `get_dsv_raw_func` -/
def getDsvRawFunc (refType : DsRefType) (fuel : Nat) (h : RwHeap) (ds : Option Nat) :
    Option (RwHeap × Nat) :=
  (h.dsHold ds).bind fun h' => rawFuncLoop fnNode isFuncDecl refType fuel h' ds 0

/-- **What `get_dsv_raw_func` is called with**: a heap of data states whose counters are right, and
    one of them. -/
structure RawFuncCall where
  cells : Finset Nat
  heap : RwHeap
  roots : Nat → Nat
  balanced : DsBalanced cells heap roots []
  ds : Nat
  there : (heap ds).isSome
  refType : DsRefType

/-- A store that counts right can be searched from any of its data states. -/
def RawFuncCall.ofStore {s : DsStore} (hs : StoreCounts s []) {ds : Nat}
    (hds : (s.heap ds).isSome) (refType : DsRefType) : RawFuncCall :=
  ⟨Finset.range s.next, s.heap, s.roots, hs.balanced, ds, hds, refType⟩

/-- **What the call must do**: it comes back, and every counter is as it was. -/
def ComesBack (a : RawFuncCall) : Prop :=
  ∃ fuel h ret, getDsvRawFunc fnNode isFuncDecl a.refType fuel a.heap (some a.ds) = some (h, ret) ∧
    ∀ ds, (h ds).map Counted.refcnt = (a.heap ds).map Counted.refcnt

/-- The address or reference that is at an offset of a value. -/
inductive RefAt : DataStateVal → Int → DataStateValRef → Prop
  | itself {raw : Nat} {type : Sec2} {v2 : DataStateValRef} {offset : Int} :
      RefAt (sec2 raw type v2) offset v2
  | member {raw raw' total : Nat} {subtype : Bool} {type : Sec2} {v3 : List DsvElem}
      {v2 : DataStateValRef} {path : List Nat} {e : DsvElem} {offset o : Int}
      (ha : Along v3 offset path e o) (hval : e.val = sec2 raw' type v2) :
      RefAt (sec3 raw subtype total v3) offset v2

/-- The value of a data state that is no function, and so is looked into. -/
def LookedInto (refType : DsRefType) (h : RwHeap) (ds : Nat) (val : DataStateVal) : Prop :=
  ∃ c, h ds = some c ∧ checkRefType fnNode isFuncDecl refType c.val.base = none ∧ c.val.val = val

/-- The loop goes from one data state, and an offset in it, to another. -/
def Hop (refType : DsRefType) (h : RwHeap) (p q : Nat × Int) : Prop :=
  ∃ val v2, LookedInto fnNode isFuncDecl refType h p.1 val ∧ RefAt val p.2 v2 ∧ v2.ds = some q.1 ∧
    q.2 = s32 v2.offset

/-- Where the loop does not get on: the offset is in a hole, or the pointer is null. -/
def Stuck (refType : DsRefType) (h : RwHeap) (p : Nat × Int) : Prop :=
  ∃ val, LookedInto fnNode isFuncDecl refType h p.1 val ∧
    ((∃ raw subtype total v3, val = sec3 raw subtype total v3 ∧ HasHole v3 p.2) ∨
      ∃ v2, RefAt val p.2 v2 ∧ v2.ds = none)

/-- **When the call does what it must**: the pointers lead into no cycle, no hole and no null
    pointer. -/
structure Followable (a : RawFuncCall) : Prop where
  acyclic : ¬ ∃ p, Relation.ReflTransGen (Hop fnNode isFuncDecl a.refType a.heap) (a.ds, 0) p ∧
    Relation.TransGen (Hop fnNode isFuncDecl a.refType a.heap) p p
  clear : ∀ p, Relation.ReflTransGen (Hop fnNode isFuncDecl a.refType a.heap) (a.ds, 0) p →
    ¬ Stuck fnNode isFuncDecl a.refType a.heap p

/-! ## What is read at a data state -/

section Reads

variable {fnNode isFuncDecl} {val : DataStateVal} {offset : Int} {v2 w2 : DataStateValRef}
  {fuel fuel' : Nat} {refType : DsRefType} {h h' : RwHeap} {d : Nat}

theorem get?_of_along {v3 : List DsvElem} {path : List Nat} {e : DsvElem} {o : Int}
    (ha : Along v3 offset path e o) (raw total : Nat) (subtype : Bool) :
    (sec3 raw subtype total v3).get? path = some e.val := by
  induction ha generalizing raw total subtype with
  | last ht =>
    rw [get?, ht.elem]
    rfl
  | inside ht hval _ ih =>
    rw [get?, ht.elem]
    exact (congrArg _ hval).trans (ih _ _ _)

theorem leaf_of_sec2 {e : DsvElem} {raw : Nat} {type : Sec2} (hval : e.val = sec2 raw type v2) :
    ¬ e.val.isConstructor := by
  intro hc
  obtain ⟨raw', subtype, total, w3, hval'⟩ := isConstructor_iff.mp hc
  rw [hval] at hval'
  cases hval'

theorem nextRef_mono {r : Option DataStateValRef} (h : nextRef fuel val offset = some r)
    (hle : fuel ≤ fuel') : nextRef fuel' val offset = some r := by
  cases val with
  | sec3 raw subtype total v3 =>
    obtain ⟨r', hr', heq⟩ := Option.map_eq_some_iff.mp h
    rw [nextRef, getDsSec3Data_mono hr' hle, Option.map_some, heq]
  | _ => exact h

theorem nextRef_unique {r r' : Option DataStateValRef} (h : nextRef fuel val offset = some r)
    (h' : nextRef fuel' val offset = some r') : r = r' :=
  Option.some.inj ((nextRef_mono h (Nat.le_max_left fuel fuel')).symm.trans
    (nextRef_mono h' (Nat.le_max_right fuel fuel')))

/-- The loop goes on with the address or reference that is at the offset. -/
theorem nextRef_some_iff : (∃ fuel, nextRef fuel val offset = some (some v2)) ↔
    RefAt val offset v2 := by
  constructor
  · rintro ⟨fuel, h⟩
    cases val with
    | unk raw => cases h
    | sec1 raw type v1 => cases h
    | sec2 raw type v2 =>
      cases h
      exact .itself
    | sec3 raw subtype total v3 =>
      obtain ⟨⟨path, o⟩, hr, heq⟩ := Option.map_eq_some_iff.mp h
      cases path with
      | none => cases heq
      | some path =>
        obtain ⟨e, ha, -⟩ := getDsSec3Data_some_iff.mp ⟨fuel, hr⟩
        simp only [Option.bind_some, get?_of_along ha] at heq
        split at heq
        · rename_i raw' type w2 hval
          cases heq
          exact .member ha (Option.some.inj hval)
        · cases heq
  · intro h
    cases h with
    | itself => exact ⟨0, rfl⟩
    | member ha hval =>
      obtain ⟨fuel, hr⟩ : ∃ fuel, getDsSec3Data fuel false _ _ = _ :=
        getDsSec3Data_some_iff.mpr ⟨_, ha, leaf_of_sec2 hval⟩
      refine ⟨fuel, ?_⟩
      rw [nextRef, hr]
      simp only [Option.map_some, Option.bind_some, get?_of_along ha, hval]

theorem nextRef_ends_iff : (∃ fuel r, nextRef fuel val offset = some r) ↔
    ¬ ∃ raw subtype total v3, val = sec3 raw subtype total v3 ∧ HasHole v3 offset := by
  constructor
  · rintro ⟨fuel, r, h⟩ ⟨raw, subtype, total, v3, rfl, hhole⟩
    obtain ⟨r', hr', -⟩ := Option.map_eq_some_iff.mp h
    exact getDsSec3Data_ends_iff.mp ⟨fuel, r', hr'⟩ hhole
  · intro hno
    cases val with
    | unk raw => exact ⟨0, none, rfl⟩
    | sec1 raw type v1 => exact ⟨0, none, rfl⟩
    | sec2 raw type v2 => exact ⟨0, some v2, rfl⟩
    | sec3 raw subtype total v3 =>
      obtain ⟨fuel, r, hr⟩ := getDsSec3Data_ends_iff.mpr fun hhole =>
        hno ⟨raw, subtype, total, v3, rfl, hhole⟩
      exact ⟨fuel, _, by rw [nextRef, hr]; rfl⟩

theorem RefAt.unique (hr : RefAt val offset v2) (hr' : RefAt val offset w2) : v2 = w2 := by
  obtain ⟨fuel, h⟩ := nextRef_some_iff.mpr hr
  obtain ⟨fuel', h'⟩ := nextRef_some_iff.mpr hr'
  exact Option.some.inj (nextRef_unique h h')

/-- What an address in a value points at, the value points at. -/
theorem RefAt.mem_refs (hr : RefAt val offset v2) (hds : v2.ds = some d) : d ∈ val.refs := by
  have hmem : ∀ {raw : Nat} {type : Sec2}, d ∈ (sec2 raw type v2).refs := by
    intro raw type
    rw [refs, hds]
    exact List.mem_singleton_self d
  cases hr with
  | itself => exact hmem
  | member ha hval =>
    refine refs_get? (get?_of_along ha _ _ _) ?_
    rw [hval]
    exact hmem

/-- Counters do not matter to what is looked into. -/
theorem lookedInto_same (hs : SameVals h h') :
    LookedInto fnNode isFuncDecl refType h' d val ↔
      LookedInto fnNode isFuncDecl refType h d val := by
  have hmap : ∀ {g : RwHeap}, LookedInto fnNode isFuncDecl refType g d val ↔
      ∃ ds, (g d).map Counted.val = some ds ∧
        checkRefType fnNode isFuncDecl refType ds.base = none ∧ ds.val = val := by
    intro g
    constructor
    · rintro ⟨c, hc, hcheck, hval⟩
      exact ⟨c.val, by rw [hc]; rfl, hcheck, hval⟩
    · rintro ⟨ds, hds, hcheck, hval⟩
      obtain ⟨c, hc, rfl⟩ := Option.map_eq_some_iff.mp hds
      exact ⟨c, hc, hcheck, hval⟩
  rw [hmap, hmap, hs d]

end Reads

/-! ## Holding what the loop is at -/

/-- During the loop only the counter of the data state that it is at is another one. -/
structure Holding (a : RawFuncCall) (h : RwHeap) (d : Nat) : Prop where
  balanced : DsBalanced a.cells h a.roots [d]
  same : SameVals a.heap h

section Holds

variable {a : RawFuncCall} {h : RwHeap} {d d' : Nat} {c : Counted DsRw}

theorem Holding.isSome (hd : Holding a h d) : (h d).isSome := by
  apply (hd.balanced.there d).mpr
  unfold owners
  rw [List.count_cons_self]
  omega

/-- The data state that the loop is at is there for others too. -/
theorem Holding.owned (hd : Holding a h d) : 0 < owners DsRw.refs a.cells h a.roots [] d := by
  rw [owners_of_same hd.same]
  exact (a.balanced.there d).mp (hd.same.isSome d ▸ hd.isSome)

theorem Holding.start (a : RawFuncCall) :
    ∃ h, a.heap.dsHold (some a.ds) = some h ∧ Holding a h a.ds := by
  obtain ⟨c, hc⟩ := Option.isSome_iff_exists.mp a.there
  exact ⟨_, by rw [RwHeap.dsHold, rcHold, hc]; rfl, a.balanced.hold hc, SameVals.update hc _⟩

/-- **Dropping what the loop is at leaves all counters as they were.** -/
theorem Holding.drop (hd : Holding a h d) (fuel : Nat) :
    h.dsDrop (fuel + 1) (some d) = some a.heap := by
  obtain ⟨h', hx, hb, hs⟩ := hd.balanced.release hd.owned fuel
  rw [RwHeap.dsDrop, hx, a.balanced.unique hb (hd.same.trans hs)]

/-- The next data state is held before this one is dropped. -/
theorem Holding.hop (hd : Holding a h d) (hc : h d = some c) (hmem : d' ∈ c.val.refs) (fuel : Nat) :
    ∃ h', (h.dsHold (some d')).bind (RwHeap.dsDrop (fuel + 1) · (some d)) = some h' ∧
      Holding a h' d' := by
  obtain ⟨c', hc'⟩ := Option.isSome_iff_exists.mp (hd.balanced.pointed hc hmem)
  have hsame := SameVals.update hc' (c'.refcnt + 1)
  have hb : DsBalanced a.cells _ a.roots [d, d'] := (hd.balanced.hold hc').reroot fun j => by
    rw [(List.Perm.swap d d' []).count_eq]
  have hother : 0 < owners DsRw.refs a.cells
      (Function.update h d' (some { c' with refcnt := c'.refcnt + 1 })) a.roots [d'] d := by
    rw [owners_of_same hsame]
    have hpos := hd.owned
    unfold owners at hpos ⊢
    rw [List.count_nil] at hpos
    omega
  obtain ⟨h', hx, hb', hs⟩ := hb.release hother fuel
  refine ⟨h', ?_, hb', (hd.same.trans hsame).trans hs⟩
  rw [RwHeap.dsHold, rcHold, hc', Option.map_some, Option.bind_some]
  exact hx

end Holds

/-! ## The loop -/

section Loop

variable {fnNode isFuncDecl} {a : RawFuncCall} {h : RwHeap} {d fuel : Nat} {offset : Int}

/-- The data states that the loop goes to, one from each. -/
theorem Hop.unique {p q q' : Nat × Int} (hq : Hop fnNode isFuncDecl a.refType a.heap p q)
    (hq' : Hop fnNode isFuncDecl a.refType a.heap p q') : q = q' := by
  obtain ⟨val, v2, ⟨c, hc, -, hval⟩, hr, hds, ho⟩ := hq
  obtain ⟨val', v2', ⟨c', hc', -, hval'⟩, hr', hds', ho'⟩ := hq'
  cases hc.symm.trans hc'
  cases hval.symm.trans hval'
  cases hr.unique hr'
  exact Prod.ext (Option.some.inj (hds.symm.trans hds')) (ho.trans ho'.symm)

/-- **One turn of the loop.**  It is done and all counters are as they were, it does not come back
    from a constructor, it is at a null pointer, or it goes on from the next data state. -/
theorem rawFuncLoop_cases (hd : Holding a h d) (fuel : Nat) (offset : Int) :
    (∃ ret, rawFuncLoop fnNode isFuncDecl a.refType (fuel + 1) h (some d) offset =
        some (a.heap, ret) ∧ (∀ q, ¬ Hop fnNode isFuncDecl a.refType a.heap (d, offset) q) ∧
        ¬ Stuck fnNode isFuncDecl a.refType a.heap (d, offset)) ∨
    (rawFuncLoop fnNode isFuncDecl a.refType (fuel + 1) h (some d) offset = none ∧
      ∃ val, LookedInto fnNode isFuncDecl a.refType a.heap d val ∧
        nextRef (fuel + 1) val offset = none) ∨
    (rawFuncLoop fnNode isFuncDecl a.refType (fuel + 1) h (some d) offset = none ∧
      Stuck fnNode isFuncDecl a.refType a.heap (d, offset)) ∨
    ∃ h' q, rawFuncLoop fnNode isFuncDecl a.refType (fuel + 1) h (some d) offset =
        rawFuncLoop fnNode isFuncDecl a.refType fuel h' (some q.1) q.2 ∧ Holding a h' q.1 ∧
      Hop fnNode isFuncDecl a.refType a.heap (d, offset) q ∧
      ¬ Stuck fnNode isFuncDecl a.refType a.heap (d, offset) := by
  obtain ⟨c, hc⟩ := Option.isSome_iff_exists.mp hd.isSome
  -- what the data state that the loop is at is looked into for
  have hlooked : ∀ val, LookedInto fnNode isFuncDecl a.refType a.heap d val →
      checkRefType fnNode isFuncDecl a.refType c.val.base = none ∧ c.val.val = val := by
    intro val hl
    obtain ⟨c', hc', hcheck, hval⟩ := (lookedInto_same hd.same).mpr hl
    cases hc.symm.trans hc'
    exact ⟨hcheck, hval⟩
  rw [rawFuncLoop, Option.bind_some, hc]
  cases hcheck : checkRefType fnNode isFuncDecl a.refType c.val.base with
  | some ret =>
    refine Or.inl ⟨ret, by simp only [hcheck, hd.drop, Option.map_some], ?_, ?_⟩
    · rintro q ⟨val, v2, hl, -⟩
      rw [(hlooked val hl).1] at hcheck
      cases hcheck
    · rintro ⟨val, hl, -⟩
      rw [(hlooked val hl).1] at hcheck
      cases hcheck
  | none =>
    have hl : LookedInto fnNode isFuncDecl a.refType a.heap d c.val.val :=
      (lookedInto_same hd.same).mp ⟨c, hc, hcheck, rfl⟩
    cases hnext : nextRef (fuel + 1) c.val.val offset with
    | none => exact Or.inr (Or.inl ⟨by simp only [hcheck, hnext], _, hl, hnext⟩)
    | some r =>
      have hfull := nextRef_ends_iff.mp ⟨fuel + 1, r, hnext⟩
      have href : ∀ v2, RefAt c.val.val offset v2 → r = some v2 := by
        intro v2 hr
        obtain ⟨fuel', h'⟩ := nextRef_some_iff.mpr hr
        exact nextRef_unique hnext h'
      cases r with
      | none =>
        refine Or.inl ⟨0, by simp only [hcheck, hnext, hd.drop, Option.map_some], ?_, ?_⟩
        · rintro q ⟨val, v2, hl', hr, -⟩
          rw [← (hlooked val hl').2] at hr
          cases href v2 hr
        · rintro ⟨val, hl', hhole | ⟨v2, hr, -⟩⟩
          · rw [← (hlooked val hl').2] at hhole
            exact hfull hhole
          · rw [← (hlooked val hl').2] at hr
            cases href v2 hr
      | some v2 =>
        have hr : RefAt c.val.val offset v2 := nextRef_some_iff.mp ⟨fuel + 1, hnext⟩
        cases hds : v2.ds with
        | none =>
          refine Or.inr (Or.inr (Or.inl ⟨?_, _, hl, Or.inr ⟨v2, hr, hds⟩⟩))
          simp only [hcheck, hnext, hds, RwHeap.dsHold, Option.bind_some, hd.drop]
          cases fuel <;> rfl
        | some d' =>
          obtain ⟨h', hx, hd'⟩ := hd.hop hc (hr.mem_refs hds) fuel
          refine Or.inr (Or.inr (Or.inr ⟨h', (d', s32 v2.offset), ?_, hd',
            ⟨_, v2, hl, hr, hds, rfl⟩, ?_⟩))
          · simp only [hcheck, hnext, hds, hx, Option.bind_some]
          · rintro ⟨val, hl', hhole | ⟨w2, hr', hnull⟩⟩
            · rw [← (hlooked val hl').2] at hhole
              exact hfull hhole
            · rw [← (hlooked val hl').2] at hr'
              cases href w2 hr'
              rw [hds] at hnull
              cases hnull

/-- A loop that comes back went past nothing that it could not get past. -/
theorem ends_of_rawFuncLoop (hd : Holding a h d) {r : RwHeap × Nat}
    (hx : rawFuncLoop fnNode isFuncDecl a.refType fuel h (some d) offset = some r) :
    r.1 = a.heap ∧
      Acc (fun q p => Hop fnNode isFuncDecl a.refType a.heap p q) (d, offset) ∧
      ∀ p, Relation.ReflTransGen (Hop fnNode isFuncDecl a.refType a.heap) (d, offset) p →
        ¬ Stuck fnNode isFuncDecl a.refType a.heap p := by
  induction fuel generalizing h d offset with
  | zero => cases hx
  | succ fuel ih =>
    obtain ⟨ret, hret, hno, hclear⟩ | ⟨hnone, -⟩ | ⟨hnone, -⟩ | ⟨h', q, hnext, hd', hhop, hclear⟩ :=
      rawFuncLoop_cases hd fuel offset
    · cases hret.symm.trans hx
      refine ⟨rfl, .intro _ fun q hq => absurd hq (hno q), fun p hp => ?_⟩
      rcases Relation.ReflTransGen.cases_head hp with rfl | ⟨q, hq, -⟩
      · exact hclear
      · exact absurd hq (hno q)
    · cases hnone.symm.trans hx
    · cases hnone.symm.trans hx
    · obtain ⟨hheap, hacc, hrest⟩ := ih hd' (hnext.symm.trans hx)
      refine ⟨hheap, .intro _ fun q' hq' => hhop.unique hq' ▸ hacc, fun p hp => ?_⟩
      rcases Relation.ReflTransGen.cases_head hp with rfl | ⟨q', hq', hp'⟩
      · exact hclear
      · cases hhop.unique hq'
        exact hrest p hp'

/-- Where the loop is not stuck, it comes back from the constructor that it searches. -/
theorem nextRef_of_clear (hclear : ¬ Stuck fnNode isFuncDecl a.refType a.heap (d, offset)) :
    ∃ n, ∀ fuel, n ≤ fuel → ∀ val, LookedInto fnNode isFuncDecl a.refType a.heap d val →
      nextRef fuel val offset ≠ none := by
  by_cases hl : ∃ val, LookedInto fnNode isFuncDecl a.refType a.heap d val
  · obtain ⟨val, hl⟩ := hl
    obtain ⟨n, r, hr⟩ := nextRef_ends_iff.mpr fun hhole => hclear ⟨val, hl, Or.inl hhole⟩
    refine ⟨n, fun fuel hle val' hl' => ?_⟩
    obtain ⟨c, hc, -, rfl⟩ := hl
    obtain ⟨c', hc', -, rfl⟩ := hl'
    cases hc.symm.trans hc'
    rw [nextRef_mono hr hle]
    exact Option.some_ne_none r
  · exact ⟨0, fun _ _ val hl' => absurd ⟨val, hl'⟩ hl⟩

/-- The induction is on the data states that the loop still goes to. -/
theorem rawFuncLoop_of_ends {p : Nat × Int}
    (hends : Acc (fun q p => Hop fnNode isFuncDecl a.refType a.heap p q) p)
    (hclear : ∀ q, Relation.ReflTransGen (Hop fnNode isFuncDecl a.refType a.heap) p q →
      ¬ Stuck fnNode isFuncDecl a.refType a.heap q) :
    ∃ n, ∀ fuel, n ≤ fuel → ∀ h, Holding a h p.1 → ∃ ret,
      rawFuncLoop fnNode isFuncDecl a.refType fuel h (some p.1) p.2 = some (a.heap, ret) := by
  induction hends with
  | intro p _ ih =>
    obtain ⟨n, hn⟩ := nextRef_of_clear (hclear p .refl)
    obtain ⟨m, hm⟩ : ∃ m, ∀ q, Hop fnNode isFuncDecl a.refType a.heap p q → ∀ fuel, m ≤ fuel →
        ∀ h, Holding a h q.1 → ∃ ret,
          rawFuncLoop fnNode isFuncDecl a.refType fuel h (some q.1) q.2 = some (a.heap, ret) := by
      by_cases hhop : ∃ q, Hop fnNode isFuncDecl a.refType a.heap p q
      · obtain ⟨q, hq⟩ := hhop
        obtain ⟨m, hm⟩ := ih q hq fun q' hq' => hclear q' (.head hq hq')
        exact ⟨m, fun q' hq' => hq.unique hq' ▸ hm⟩
      · exact ⟨0, fun q hq => absurd ⟨q, hq⟩ hhop⟩
    refine ⟨max n m + 1, fun fuel hle h hd => ?_⟩
    obtain ⟨fuel, rfl⟩ := Nat.exists_eq_add_of_le' (Nat.one_le_of_lt hle)
    have hle' : max n m ≤ fuel := Nat.le_of_succ_le_succ hle
    obtain ⟨ret, hret, -⟩ | ⟨-, val, hl, hnone⟩ | ⟨-, hstuck⟩ | ⟨h', q, hnext, hd', hhop, -⟩ :=
      rawFuncLoop_cases hd fuel p.2
    · exact ⟨ret, hret⟩
    · exact absurd hnone (hn _ ((Nat.le_max_left n m).trans (hle'.trans (Nat.le_succ fuel))) val hl)
    · exact absurd hstuck (hclear p .refl)
    · obtain ⟨ret, hret⟩ := hm q hhop fuel ((Nat.le_max_right n m).trans hle') h' hd'
      exact ⟨ret, hnext.trans hret⟩

/-- The loop can go on from finitely many data states and offsets. -/
theorem mem_of_hop {p q : Nat × Int}
    (hp : Relation.ReflTransGen (Hop fnNode isFuncDecl a.refType a.heap) (a.ds, 0) p)
    (hq : Hop fnNode isFuncDecl a.refType a.heap p q) :
    p.1 ∈ a.cells ∧ -2 ^ 31 ≤ p.2 ∧ p.2 < 2 ^ 31 := by
  obtain ⟨val, v2, ⟨c, hc, -⟩, -⟩ := hq
  refine ⟨a.balanced.made _ (by rw [hc]; rfl), ?_⟩
  rcases Relation.ReflTransGen.cases_tail hp with rfl | ⟨p', -, hlast⟩
  · exact (by decide : (-2 ^ 31 : Int) ≤ 0 ∧ (0 : Int) < 2 ^ 31)
  · obtain ⟨-, v2', -, -, -, ho⟩ := hlast
    rw [ho]
    exact s32_range v2'.offset

/-- **The call comes back, with all counters as they were, exactly when what it follows runs into no
    cycle, no hole and no null pointer.** -/
theorem comesBack_iff : ComesBack fnNode isFuncDecl a ↔ Followable fnNode isFuncDecl a := by
  obtain ⟨h, hstart, hd⟩ := Holding.start a
  have hnodes : ∀ p q,
      Relation.ReflTransGen (Hop fnNode isFuncDecl a.refType a.heap) (a.ds, 0) p →
      Hop fnNode isFuncDecl a.refType a.heap p q →
        p ∈ a.cells ×ˢ Finset.Ico (-2 ^ 31) (2 ^ 31 : Int) := by
    intro p q hp hq
    obtain ⟨hmem, hrange⟩ := mem_of_hop hp hq
    exact Finset.mem_product.mpr ⟨hmem, Finset.mem_Ico.mpr hrange⟩
  have hcycle := acc_iff_no_cycle hnodes
  constructor
  · rintro ⟨fuel, h', ret, hx, -⟩
    rw [getDsvRawFunc, hstart, Option.bind_some] at hx
    obtain ⟨-, hacc, hclear⟩ := ends_of_rawFuncLoop hd hx
    exact ⟨hcycle.mp hacc, hclear⟩
  · rintro ⟨hacyclic, hclear⟩
    obtain ⟨n, hn⟩ := rawFuncLoop_of_ends (hcycle.mpr hacyclic) hclear
    obtain ⟨ret, hret⟩ := hn n (Nat.le_refl n) h hd
    refine ⟨n, a.heap, ret, ?_, fun ds => rfl⟩
    rw [getDsvRawFunc, hstart, Option.bind_some]
    exact hret

end Loop

/-- **`get_dsv_raw_func` comes back with all counters as they were exactly when what it follows runs
    into no cycle, no hole and no null pointer, and `get_ds_sec3_data` gives the leaf at an offset
    where no constructor inside has a hole there and no leaf sticks out of the elements**; and in
    32 bits, nowhere else. -/
theorem getDsvRawFunc_exact :
    (∀ a : RawFuncCall, ComesBack fnNode isFuncDecl a ↔ Followable fnNode isFuncDecl a) ∧
      ∀ (v3 : List DsvElem) (offset : Int), -2 ^ 31 ≤ offset → offset < 2 ^ 31 →
        (Solid v3 offset → FindsLeaf v3 offset) ∧
          (SizedElems v3 → FindsLeaf v3 offset → Solid v3 offset) :=
  ⟨fun _ => comesBack_iff, fun _ _ hlo hhi => ⟨fun hs => (findsLeaf_iff hs.sized hlo hhi).mpr hs,
    fun hv => (findsLeaf_iff hv hlo hhi).mp⟩⟩

end Nodes

/-! ## Where it comes back -/

/-- `struct { struct { char c; long l; } s; }` -/
def paddedMember : List DsvElem :=
  [⟨0, 128, .sec3 0 false 16 [⟨0, 8, .unk 0⟩, ⟨64, 64, .unk 0⟩]⟩]

theorem laidOut_paddedMember : LaidOut 128 paddedMember := by
  refine .mk (by decide) fun e he raw subtype total w3 hval => ?_
  obtain rfl := List.mem_singleton.mp he
  cases hval
  refine .mk (by decide) fun e he raw subtype total w3 hval => ?_
  rcases List.mem_pair.mp he with rfl | rfl <;> cases hval

theorem not_inHole_paddedMember : ¬ InHole paddedMember 70 := by
  have hmember : ∀ {i : Nat} {e : DsvElem}, paddedMember[i]? = some e →
      e = ⟨0, 128, .sec3 0 false 16 [⟨0, 8, .unk 0⟩, ⟨64, 64, .unk 0⟩]⟩ := fun he =>
    List.mem_singleton.mp (List.mem_of_getElem? he)
  intro h
  cases h with
  | here he hat hfirst hval hno =>
    obtain rfl := hmember he
    cases hval
    exact hno ⟨64, 64, .unk 0⟩ (by simp) (by unfold IsAt; decide)
  | inside he hat hfirst hval hrest =>
    obtain rfl := hmember he
    cases hval
    -- the elements of the member are leaves
    have hleaf : ∀ {i : Nat} {e : DsvElem} {raw total : Nat} {subtype : Bool} {w3 : List DsvElem},
        ([⟨0, 8, .unk 0⟩, ⟨64, 64, .unk 0⟩] : List DsvElem)[i]? = some e →
          e.val ≠ sec3 raw subtype total w3 := by
      intro i e raw total subtype w3 he hval
      rcases List.mem_pair.mp (List.mem_of_getElem? he) with rfl | rfl <;> cases hval
    cases hrest with
    | here he hat hfirst hval hno => exact hleaf he hval
    | inside he hat hfirst hval hrest => exact hleaf he hval

/-- A pointer variable, held by a caller, that holds the address of a function. -/
def functionPointer : RwHeap := fun ds =>
  if ds = 0 then some ⟨1, ⟨0, .vn⟩, .sec2 0 .addr ⟨some 1, 0, 64⟩⟩
  else if ds = 1 then some ⟨1, ⟨0, .fn⟩, .unk 0⟩ else none

theorem functionPointer_balanced :
    DsBalanced {0, 1} functionPointer (fun ds => if ds = 0 then 1 else 0) [] := by
  have howners : ∀ ds, owners DsRw.refs {0, 1} functionPointer (fun ds => if ds = 0 then 1 else 0)
      [] ds = if ds = 0 ∨ ds = 1 then 1 else 0 := by
    intro ds
    rw [owners, pointers, Finset.sum_pair (by decide)]
    show List.count ds [1] + List.count ds [] + (if ds = 0 then 1 else 0) + List.count ds [] = _
    rw [List.count_singleton, List.count_nil]
    by_cases h0 : ds = 0
    · subst h0
      rfl
    · by_cases h1 : ds = 1
      · subst h1
        rfl
      · simp [h0, h1, Ne.symm h1]
  refine ⟨fun ds hds => ?_, fun ds c hc => ?_, fun ds => ?_⟩
  · unfold functionPointer at hds
    split at hds
    · simp [*]
    · split at hds
      · simp [*]
      · cases hds
  · rw [howners]
    unfold functionPointer at hc
    split at hc
    · cases hc
      simp [*]
    · split at hc
      · cases hc
        simp [*]
      · cases hc
  · rw [howners]
    unfold functionPointer
    split
    · simp [*]
    · split <;> simp [*]

def functionPointerCall : RawFuncCall :=
  ⟨{0, 1}, functionPointer, fun ds => if ds = 0 then 1 else 0, functionPointer_balanced, 0, rfl,
    .fn⟩

/-- The address leads to the function, and no further. -/
theorem functionPointer_hop {p q : Nat × Int}
    (h : Hop (fun _ => 0) (fun _ => false) .fn functionPointer p q) : p.1 = 0 ∧ q = (1, 0) := by
  obtain ⟨val, v2, ⟨c, hc, hcheck, rfl⟩, hr, hds, ho⟩ := h
  unfold functionPointer at hc
  split at hc
  · rename_i h0
    cases hc
    cases hr with
    | itself =>
      exact ⟨h0, Prod.ext (Option.some.inj hds).symm (ho.trans (by decide))⟩
  · split at hc
    · cases hc
      cases hcheck
    · cases hc

/-- **The call through a pointer to a function comes back, and the long of the padded record is
    found.** -/
theorem getDsvRawFunc_exact_back :
    ComesBack (fun _ => 0) (fun _ => false) functionPointerCall ∧ FindsLeaf paddedMember 70 := by
  obtain ⟨hcalls, hleaves⟩ := @getDsvRawFunc_exact (fun _ => 0) fun _ => false
  refine ⟨(hcalls functionPointerCall).mpr ⟨?_, ?_⟩, ?_⟩
  · rintro ⟨p, -, hcycle⟩
    obtain ⟨q, hfirst, -⟩ := Relation.TransGen.head'_iff.mp hcycle
    obtain ⟨q', -, hlast⟩ := Relation.TransGen.tail'_iff.mp hcycle
    have hstart := (functionPointer_hop hfirst).1
    rw [(functionPointer_hop hlast).2] at hstart
    cases hstart
  · rintro p - ⟨val, ⟨c, hc, hcheck, rfl⟩, hstuck⟩
    change functionPointer p.1 = some c at hc
    unfold functionPointer at hc
    split at hc
    · cases hc
      rcases hstuck with ⟨raw, subtype, total, v3, hval, -⟩ | ⟨v2, hr, hnull⟩
      · cases hval
      · cases hr with
        | itself => cases hnull
    · split at hc
      · cases hc
        cases hcheck
      · cases hc
  · refine (hleaves paddedMember 70 (by decide) (by decide)).1 ?_
    exact (solid_iff_of_laidOut laidOut_paddedMember (by decide)).mpr not_inHole_paddedMember

/-! ## Where it does not come back -/

/-- A pointer variable that holds its own address, and a caller that holds its data state. -/
def selfPointer : RwHeap :=
  Function.update (fun _ => none) 0 (some ⟨2, ⟨0, .vn⟩, .sec2 0 .addr ⟨some 0, 0, 64⟩⟩)

theorem selfPointer_balanced :
    DsBalanced {0} selfPointer (fun ds => if ds = 0 then 1 else 0) [] := by
  have howners : ∀ ds, owners DsRw.refs {0} selfPointer (fun ds => if ds = 0 then 1 else 0) [] ds =
      if ds = 0 then 2 else 0 := by
    intro ds
    rw [owners, pointers, Finset.sum_singleton]
    by_cases hds : ds = 0
    · subst hds
      rfl
    · have hcount : List.count ds [0] = 0 := List.count_eq_zero.mpr (by simpa using hds)
      rw [if_neg hds, if_neg hds, List.count_nil]
      exact hcount
  refine ⟨fun ds hds => ?_, fun ds c hc => ?_, fun ds => ?_⟩
  · by_contra hno
    rw [Finset.mem_singleton] at hno
    rw [selfPointer, Function.update_of_ne hno] at hds
    cases hds
  · rw [howners]
    by_cases hds : ds = 0
    · subst hds
      cases hc
      rfl
    · rw [selfPointer, Function.update_of_ne hds] at hc
      cases hc
  · rw [howners]
    by_cases hds : ds = 0
    · subst hds
      exact ⟨fun _ => by decide, fun _ => rfl⟩
    · rw [selfPointer, Function.update_of_ne hds, if_neg hds]
      exact ⟨fun h => (by cases h), fun h => (by cases h)⟩

def selfPointerCall : RawFuncCall :=
  ⟨{0}, selfPointer, fun ds => if ds = 0 then 1 else 0, selfPointer_balanced, 0, rfl, .fn⟩

/-- Calls through a pointer to itself, and through one into the padding of a member, do not come
    back. -/
theorem selfPointer_not_back :
    ¬ ComesBack (fun _ => 0) (fun _ => false) selfPointerCall ∧ ¬ FindsLeaf paddedMember 32 := by
  constructor
  · intro h
    have hself : Hop (fun _ => 0) (fun _ => false) .fn selfPointer (0, 0) (0, 0) :=
      ⟨_, _, ⟨_, rfl, rfl, rfl⟩, .itself, rfl, by decide⟩
    exact (comesBack_iff.mp h).acyclic ⟨(0, 0), .refl, .single hself⟩
  · rintro ⟨fuel, r, hr, -⟩
    have ht : Takes paddedMember 32 0 _ := ⟨rfl, by decide, fun j e' hj => by omega⟩
    have hhole : HasHole paddedMember 32 :=
      ⟨[0], _, _, 0, false, 16, _, .last ht, rfl, by decide⟩
    rw [getDsSec3Data_of_hole hhole] at hr
    cases hr

end Srcinv.Analysis.RawFunc
