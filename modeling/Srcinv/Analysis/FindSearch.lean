import Srcinv.Analysis.Assign
import Mathlib.Data.List.Nodup

/-!
# The search in a constructor (`__dsv_find_constructor_elem`, `include/si_ds.h`)

A request is a range of bits of a constructor.  The search goes into the elements that contain the
range: into the first one of a record or an array, into all of a union, and it stops with -1 at an
element without parts that is not the range.

* `Tried` — an element that the search comes to when it does not stop, and the offset of the range
  that it asks it for.  A constructor in a union moves the range of those after it.
* `findConstructorElem_answers` — **the search fails exactly where an element that is tried does,
  and otherwise notes those that are the range**, in the order of their paths.
-/

namespace Srcinv.Analysis

open DataStateVal

abbrev DsvElem : Type := DataStateVal1 DataStateVal

/-! ## What the search tries -/

/-- The range is in the element, as the code compares them. -/
def DsvElem.Contains (e : DsvElem) (offset : Int) (bits : Nat) : Prop :=
  e.offset ≤ offset ∧ u32 (offset + bits) ≤ u32 (e.offset + e.bits)

instance (e : DsvElem) (offset : Int) (bits : Nat) : Decidable (e.Contains offset bits) := by
  unfold DsvElem.Contains
  infer_instance

/-- `offset` after an element of a union. -/
def DsvElem.next (bits : Nat) (e : DsvElem) (offset : Int) : Int :=
  if e.Contains offset bits ∧ e.val.isConstructor then s32 (offset - e.offset) else offset

/-- `offset` after some elements of a union. -/
def runOffset (bits : Nat) (v3 : List DsvElem) (offset : Int) : Int :=
  v3.foldl (fun offset e => e.next bits offset) offset

/-- The loop comes to the element `i` with the offset `o`, and the range is in it. -/
structure Tries (subtype : Bool) (bits : Nat) (v3 : List DsvElem) (offset : Int) (i : Nat)
    (e : DsvElem) (o : Int) : Prop where
  elem : v3[i]? = some e
  contains : e.Contains o bits
  first : subtype = false → o = offset ∧ ∀ e' ∈ v3.take i, ¬ e'.Contains offset bits
  moved : subtype = true → o = runOffset bits (v3.take i) offset

/-- The search comes to the element `e` at a path, with the offset `o` in the constructor that it
    is in. -/
def Tried (bits : Nat) : List Nat → DataStateVal → Int → DsvElem → Int → Prop
  | i :: path, sec3 _ subtype _ v3, offset, e, o => ∃ e₀ o₀, Tries subtype bits v3 offset i e₀ o₀ ∧
      (path = [] ∧ e = e₀ ∧ o = o₀ ∨ Tried bits path e₀.val (s32 (o₀ - e₀.offset)) e o)
  | _, _, _, _, _ => False

/-- A constructor without elements. -/
def DataStateVal.isEmpty : DataStateVal → Bool
  | sec3 _ _ _ v3 => v3.isEmpty
  | _ => false

theorem DataStateVal.isConstructor_iff {v : DataStateVal} : v.isConstructor ↔
    ∃ raw subtype total v3, v = sec3 raw subtype total v3 := by
  constructor
  · intro h
    cases v with
    | sec3 raw subtype total v3 => exact ⟨raw, subtype, total, v3, rfl⟩
    | sec1 raw type v1 => cases type <;> cases h
    | sec2 raw type v2 => cases type <;> cases h
    | unk raw => cases h
  · rintro ⟨raw, subtype, total, v3, rfl⟩
    rfl

/-- What fails when it is tried: a constructor without elements, and what has no parts and is not
    the range. -/
def DsvElem.Fails (e : DsvElem) (o : Int) (bits : Nat) : Prop :=
  e.val.isEmpty = true ∨ ¬ e.val.isConstructor ∧ ¬ (o = e.offset ∧ bits = e.bits)

/-- What is noted when it is tried. -/
def DsvElem.Hits (e : DsvElem) (o : Int) (bits : Nat) : Prop :=
  match e.val with
  | sec3 _ _ total v3 => v3 ≠ [] ∧ s32 (o - e.offset) = 0 ∧ bits = u32 (total * BITS_PER_UNIT)
  | _ => o = e.offset ∧ bits = e.bits

/-! ## The loop, element by element -/

section Loop

variable {subtype : Bool} {bits : Nat} {v3 : List DsvElem} {offset o : Int} {i : Nat}
  {e e₀ : DsvElem}

theorem tries_zero : Tries subtype bits (e₀ :: v3) offset 0 e o ↔
    e₀.Contains offset bits ∧ e = e₀ ∧ o = offset := by
  constructor
  · rintro ⟨helem, hcont, hfirst, hmoved⟩
    cases helem
    have ho : o = offset := by
      cases subtype with
      | false => exact (hfirst rfl).1
      | true => exact hmoved rfl
    exact ⟨ho ▸ hcont, rfl, ho⟩
  · rintro ⟨hcont, rfl, rfl⟩
    exact ⟨rfl, hcont, fun _ => ⟨rfl, fun e' he' => by cases he'⟩, fun _ => rfl⟩

/-- An element that does not contain the range is left out. -/
theorem tries_skip (hno : ¬ e₀.Contains offset bits) :
    Tries subtype bits (e₀ :: v3) offset (i + 1) e o ↔ Tries subtype bits v3 offset i e o := by
  have hnext : e₀.next bits offset = offset := if_neg fun hand => hno hand.1
  have hrun : runOffset bits ((e₀ :: v3).take (i + 1)) offset =
      runOffset bits (v3.take i) offset := by
    rw [runOffset, List.take_succ_cons, List.foldl_cons, hnext, ← runOffset]
  constructor
  · rintro ⟨helem, hcont, hfirst, hmoved⟩
    refine ⟨helem, hcont, fun hs => ⟨(hfirst hs).1, fun e' he' => ?_⟩, fun hs => ?_⟩
    · exact (hfirst hs).2 e' (by rw [List.take_succ_cons]; exact List.mem_cons_of_mem e₀ he')
    · rw [hmoved hs, hrun]
  · rintro ⟨helem, hcont, hfirst, hmoved⟩
    refine ⟨helem, hcont, fun hs => ⟨(hfirst hs).1, fun e' he' => ?_⟩, fun hs => ?_⟩
    · rw [List.take_succ_cons] at he'
      rcases List.mem_cons.mp he' with rfl | he'
      · exact hno
      · exact (hfirst hs).2 e' he'
    · rw [hmoved hs, hrun]

/-- A record stops at the first element that contains the range. -/
theorem not_tries_after (hyes : e₀.Contains offset bits) :
    ¬ Tries false bits (e₀ :: v3) offset (i + 1) e o := fun ht =>
  (ht.first rfl).2 e₀ (by rw [List.take_succ_cons]; exact List.mem_cons_self) hyes

/-- A union goes on, with the offset that the element leaves. -/
theorem tries_next : Tries true bits (e₀ :: v3) offset (i + 1) e o ↔
    Tries true bits v3 (e₀.next bits offset) i e o := by
  constructor
  · rintro ⟨helem, hcont, -, hmoved⟩
    exact ⟨helem, hcont, fun hs => (by cases hs), hmoved⟩
  · rintro ⟨helem, hcont, -, hmoved⟩
    exact ⟨helem, hcont, fun hs => (by cases hs), hmoved⟩

end Loop

/-- `Tried` below an element, the element included. -/
def TriedIn (bits : Nat) (e₀ : DsvElem) (o₀ : Int) (path : List Nat) (e : DsvElem) (o : Int) :
    Prop :=
  path = [] ∧ e = e₀ ∧ o = o₀ ∨ Tried bits path e₀.val (s32 (o₀ - e₀.offset)) e o

/-- `Tried` from some elements on, the first of which is the element `i`. -/
def TriedFrom (subtype : Bool) (bits : Nat) (i : Nat) (v3 : List DsvElem) (offset : Int)
    (path : List Nat) (e : DsvElem) (o : Int) : Prop :=
  ∃ k path' e₀ o₀, path = (i + k) :: path' ∧ Tries subtype bits v3 offset k e₀ o₀ ∧
    TriedIn bits e₀ o₀ path' e o

/-- What a search gives: whether it fails, and what it notes. -/
structure Answers (bits : Nat) (tried : List Nat → DsvElem → Int → Prop)
    (result : List (List Nat) × Bool) : Prop where
  fails : result.2 = true ↔ ∃ path e o, tried path e o ∧ e.Fails o bits
  notes : result.2 = false → ∀ path, path ∈ result.1 ↔ ∃ e o, tried path e o ∧ e.Hits o bits
  sorted : result.2 = false → result.1.Pairwise (· < ·)

section Search

variable {bits : Nat} {P Q : List Nat → DsvElem → Int → Prop} {r r' : List (List Nat) × Bool}

theorem Answers.congr (ha : Answers bits P r) (hiff : ∀ path e o, Q path e o ↔ P path e o) :
    Answers bits Q r := by
  have heq : Q = P := by
    funext path e o
    exact propext (hiff path e o)
  exact heq ▸ ha

/-- No path is noted twice. -/
theorem Answers.nodup (ha : Answers bits P r) (herr : r.2 = false) : r.1.Nodup := by
  refine (ha.sorted herr).imp ?_
  rintro path path' hlt rfl
  exact List.lt_irrefl path hlt

theorem Answers.nothing (hP : ∀ path e o, ¬ P path e o) : Answers bits P ([], false) := by
  refine ⟨⟨fun h => (by cases h), ?_⟩, fun _ path => ⟨fun h => (by cases h), ?_⟩,
    fun _ => List.Pairwise.nil⟩
  · rintro ⟨path, e, o, htried, -⟩
    exact absurd htried (hP path e o)
  · rintro ⟨e, o, htried, -⟩
    exact absurd htried (hP path e o)

/-- One search after the other, on later paths. -/
theorem Answers.append (ha : Answers bits P r) (ha' : Answers bits Q r')
    (hlater : ∀ path e o path' e' o', P path e o → Q path' e' o' → path < path') :
    Answers bits (fun path e o => P path e o ∨ Q path e o)
      (if r.2 then (r.1, true) else (r.1 ++ r'.1, r'.2)) := by
  cases herr : r.2 with
  | true =>
    refine ⟨⟨fun _ => ?_, fun _ => rfl⟩, fun h => (by cases h), fun h => (by cases h)⟩
    obtain ⟨path, e, o, htried, hfail⟩ := ha.fails.mp herr
    exact ⟨path, e, o, Or.inl htried, hfail⟩
  | false =>
    refine ⟨⟨fun h => ?_, ?_⟩, fun h path => ?_, fun h => ?_⟩
    · obtain ⟨path, e, o, htried, hfail⟩ := ha'.fails.mp h
      exact ⟨path, e, o, Or.inr htried, hfail⟩
    · rintro ⟨path, e, o, htried | htried, hfail⟩
      · rw [ha.fails.mpr ⟨path, e, o, htried, hfail⟩] at herr
        cases herr
      · exact ha'.fails.mpr ⟨path, e, o, htried, hfail⟩
    · rw [if_neg Bool.false_ne_true, List.mem_append, ha.notes herr, ha'.notes h]
      constructor
      · rintro (⟨e, o, htried, hhit⟩ | ⟨e, o, htried, hhit⟩)
        · exact ⟨e, o, Or.inl htried, hhit⟩
        · exact ⟨e, o, Or.inr htried, hhit⟩
      · rintro ⟨e, o, htried | htried, hhit⟩
        · exact Or.inl ⟨e, o, htried, hhit⟩
        · exact Or.inr ⟨e, o, htried, hhit⟩
    · rw [if_neg Bool.false_ne_true]
      refine List.pairwise_append.mpr ⟨ha.sorted herr, ha'.sorted h, ?_⟩
      intro path hmem path' hmem'
      obtain ⟨e, o, htried, -⟩ := (ha.notes herr path).mp hmem
      obtain ⟨e', o', htried', -⟩ := (ha'.notes h path').mp hmem'
      exact hlater path e o path' e' o' htried htried'

/-- What the loop does with an element that contains the range. -/
def tryElem (i : Nat) (e : DsvElem) (o : Int) (bits : Nat) : List (List Nat) × Bool :=
  match e.val with
  | sec3 raw subtype total v3 =>
    let (paths, err) := findConstructorElem (sec3 raw subtype total v3) (s32 (o - e.offset)) bits
    (paths.map (i :: ·), err)
  | _ => if o = e.offset ∧ bits = e.bits then ([[i]], false) else ([], true)

theorem tryElem_other {i : Nat} {e : DsvElem} {o : Int} (hcons : ¬ e.val.isConstructor) :
    tryElem i e o bits = if o = e.offset ∧ bits = e.bits then ([[i]], false) else ([], true) := by
  unfold tryElem
  split
  · rename_i heq
    exact absurd (isConstructor_iff.mpr ⟨_, _, _, _, heq⟩) hcons
  · rfl

theorem findElems_skip {subtype : Bool} {i : Nat} {e : DsvElem} {v3 : List DsvElem} {offset : Int}
    (hno : ¬ e.Contains offset bits) :
    findElems subtype i (e :: v3) offset bits = findElems subtype (i + 1) v3 offset bits := by
  obtain ⟨fieldoffset, fieldbits, val⟩ := e
  have hno' : ¬ (fieldoffset ≤ offset ∧ u32 (offset + bits) ≤ u32 (fieldoffset + fieldbits)) := hno
  by_cases hcons : val.isConstructor
  · obtain ⟨raw, subtype', total, v3', rfl⟩ := isConstructor_iff.mp hcons
    rw [findElems, if_pos hno']
  · rw [findElems, if_pos hno']
    exact fun raw subtype' total v3' h => hcons (isConstructor_iff.mpr ⟨_, _, _, _, h⟩)

theorem findElems_try {subtype : Bool} {i : Nat} {e : DsvElem} {v3 : List DsvElem} {offset : Int}
    (hyes : e.Contains offset bits) :
    findElems subtype i (e :: v3) offset bits =
      if (tryElem i e offset bits).2 then ((tryElem i e offset bits).1, true)
      else if subtype then
        ((tryElem i e offset bits).1 ++ (findElems subtype (i + 1) v3 (e.next bits offset) bits).1,
          (findElems subtype (i + 1) v3 (e.next bits offset) bits).2)
      else ((tryElem i e offset bits).1, false) := by
  obtain ⟨fieldoffset, fieldbits, val⟩ := e
  have hyes' : fieldoffset ≤ offset ∧ u32 (offset + bits) ≤ u32 (fieldoffset + fieldbits) := hyes
  by_cases hcons : val.isConstructor
  · have hmove : DsvElem.next bits ⟨fieldoffset, fieldbits, val⟩ offset =
        s32 (offset - fieldoffset) := if_pos ⟨hyes, hcons⟩
    obtain ⟨raw, subtype', total, v3', rfl⟩ := isConstructor_iff.mp hcons
    rw [findElems, if_neg (not_not.mpr hyes'), hmove]
    rfl
  · -- what has no parts leaves the offset
    have hkeep : DsvElem.next bits ⟨fieldoffset, fieldbits, val⟩ offset = offset :=
      if_neg fun hand => hcons hand.2
    have hother : ∀ raw subtype' total v3', val = sec3 raw subtype' total v3' → False :=
      fun raw subtype' total v3' h => hcons (isConstructor_iff.mpr ⟨_, _, _, _, h⟩)
    have htry : tryElem i ⟨fieldoffset, fieldbits, val⟩ offset bits =
        if offset = fieldoffset ∧ bits = fieldbits then ([[i]], false) else ([], true) :=
      tryElem_other hcons
    rw [findElems, if_neg (not_not.mpr hyes'), hkeep, htry]
    · by_cases hexact : offset = fieldoffset ∧ bits = fieldbits
      · simp only [hexact, and_self, if_true]
      · simp only [hexact, if_false, if_true]
    · exact hother

end Search

/-! ## What it fails on, and what it notes -/

/-- What is tried at and below the element `i`. -/
def TriedAt (bits : Nat) (i : Nat) (e₀ : DsvElem) (o₀ : Int) (path : List Nat) (e : DsvElem)
    (o : Int) : Prop :=
  ∃ path', path = i :: path' ∧ TriedIn bits e₀ o₀ path' e o

theorem tried_cons {bits i : Nat} {path : List Nat} {raw total : Nat} {subtype : Bool}
    {v3 : List DsvElem} {offset o : Int} {e : DsvElem} :
    Tried bits (i :: path) (sec3 raw subtype total v3) offset e o ↔
      TriedFrom subtype bits 0 v3 offset (i :: path) e o := by
  constructor
  · rintro ⟨e₀, o₀, htries, hin⟩
    exact ⟨i, path, e₀, o₀, by rw [Nat.zero_add], htries, hin⟩
  · rintro ⟨k, path', e₀, o₀, hpath, htries, hin⟩
    rw [Nat.zero_add] at hpath
    cases hpath
    exact ⟨e₀, o₀, htries, hin⟩

theorem not_tried_nil {bits : Nat} {v : DataStateVal} {offset o : Int} {e : DsvElem} :
    ¬ Tried bits [] v offset e o := by
  unfold Tried
  exact id

theorem tried_iff_from {bits : Nat} {path : List Nat} {raw total : Nat} {subtype : Bool}
    {v3 : List DsvElem} {offset o : Int} {e : DsvElem} :
    Tried bits path (sec3 raw subtype total v3) offset e o ↔
      TriedFrom subtype bits 0 v3 offset path e o := by
  cases path with
  | nil =>
    refine ⟨fun h => absurd h not_tried_nil, ?_⟩
    rintro ⟨k, path', e₀, o₀, hpath, -⟩
    cases hpath
  | cons i path => exact tried_cons

theorem tried_constructor {bits : Nat} {path : List Nat} {v : DataStateVal} {offset o : Int}
    {e : DsvElem} (h : Tried bits path v offset e o) : v.isConstructor ∧ v.isEmpty = false := by
  unfold Tried at h
  split at h
  · rename_i i path raw subtype total v3
    obtain ⟨e₀, o₀, htries, -⟩ := h
    refine ⟨rfl, ?_⟩
    cases v3 with
    | nil =>
      have helem := htries.elem
      rw [List.getElem?_nil] at helem
      cases helem
    | cons e₁ v3 => rfl
  · exact h.elim

section Answer

variable {bits i : Nat} {e : DsvElem} {o : Int}

theorem DsvElem.hits_other (hcons : ¬ e.val.isConstructor) :
    e.Hits o bits ↔ o = e.offset ∧ bits = e.bits := by
  unfold DsvElem.Hits
  split
  · rename_i heq
    exact absurd (isConstructor_iff.mpr ⟨_, _, _, _, heq⟩) hcons
  · exact Iff.rfl

theorem isEmpty_other {v : DataStateVal} (hcons : ¬ v.isConstructor) : v.isEmpty = false := by
  cases v with
  | sec3 raw subtype total v3 => exact absurd rfl hcons
  | _ => rfl

/-- An element without parts. -/
theorem answers_other (hcons : ¬ e.val.isConstructor) :
    Answers bits (TriedAt bits i e o) (tryElem i e o bits) := by
  have htried : ∀ path e' o', TriedAt bits i e o path e' o' ↔ path = [i] ∧ e' = e ∧ o' = o := by
    intro path e' o'
    constructor
    · rintro ⟨path', rfl, ⟨rfl, rfl, rfl⟩ | hbelow⟩
      · exact ⟨rfl, rfl, rfl⟩
      · exact absurd (tried_constructor hbelow).1 hcons
    · rintro ⟨rfl, rfl, rfl⟩
      exact ⟨[], rfl, Or.inl ⟨rfl, rfl, rfl⟩⟩
  have hfails : e.Fails o bits ↔ ¬ (o = e.offset ∧ bits = e.bits) := by
    unfold DsvElem.Fails
    rw [isEmpty_other hcons]
    simp only [Bool.false_eq_true, hcons, not_false_iff, true_and, false_or]
  refine Answers.congr ?_ htried
  rw [tryElem_other hcons]
  by_cases hexact : o = e.offset ∧ bits = e.bits
  · rw [if_pos hexact]
    refine ⟨⟨fun h => (by cases h), ?_⟩, fun _ path => ?_, fun _ => List.pairwise_singleton ..⟩
    · rintro ⟨path, e', o', ⟨-, rfl, rfl⟩, hfail⟩
      exact absurd hexact (hfails.mp hfail)
    · rw [List.mem_singleton]
      constructor
      · intro hpath
        exact ⟨e, o, ⟨hpath, rfl, rfl⟩, (DsvElem.hits_other hcons).mpr hexact⟩
      · rintro ⟨e', o', ⟨hpath, -⟩, -⟩
        exact hpath
  · rw [if_neg hexact]
    refine ⟨⟨fun _ => ⟨[i], e, o, ⟨rfl, rfl, rfl⟩, hfails.mpr hexact⟩, fun _ => rfl⟩, fun h => ?_,
      fun h => ?_⟩
    · cases h
    · cases h

/-- A constructor without elements. -/
theorem answers_empty (hempty : e.val.isEmpty = true) :
    Answers bits (TriedAt bits i e o) (tryElem i e o bits) := by
  have htry : tryElem i e o bits = ([], true) := by
    obtain ⟨fieldoffset, fieldbits, val⟩ := e
    cases val with
    | sec3 raw subtype total v3 =>
      obtain rfl := List.isEmpty_iff.mp hempty
      rfl
    | _ => cases hempty
  rw [htry]
  refine ⟨⟨fun _ => ?_, fun _ => rfl⟩, fun h => (by cases h), fun h => (by cases h)⟩
  exact ⟨[i], e, o, ⟨[], rfl, Or.inl ⟨rfl, rfl, rfl⟩⟩, Or.inl hempty⟩

/-- A constructor with elements: it may be the range itself, and they are tried. -/
theorem answers_constructor {raw total : Nat} {subtype : Bool} {v3 : List DsvElem}
    (hval : e.val = sec3 raw subtype total v3) (hne : v3 ≠ [])
    (ha : Answers bits (TriedFrom subtype bits 0 v3 (s32 (o - e.offset)))
      (findElems subtype 0 v3 (s32 (o - e.offset)) bits)) :
    Answers bits (TriedAt bits i e o) (tryElem i e o bits) := by
  have hsome : v3.isEmpty = false := by
    cases v3 with
    | nil => exact absurd rfl hne
    | cons e₀ v3 => rfl
  have hfirst : ¬ e.Fails o bits := by
    unfold DsvElem.Fails
    rw [hval]
    rintro (hempty | ⟨hcons, -⟩)
    · rw [DataStateVal.isEmpty, hsome] at hempty
      cases hempty
    · exact hcons rfl
  have hbelow : ∀ path' e' o', Tried bits path' e.val (s32 (o - e.offset)) e' o' ↔
      TriedFrom subtype bits 0 v3 (s32 (o - e.offset)) path' e' o' := by
    intro path' e' o'
    rw [hval]
    exact tried_iff_from
  have hhit : e.Hits o bits ↔ s32 (o - e.offset) = 0 ∧ bits = u32 (total * BITS_PER_UNIT) := by
    unfold DsvElem.Hits
    rw [hval]
    exact and_iff_right hne
  -- below, no path is empty
  have hnil : ∀ e' o', ¬ TriedFrom subtype bits 0 v3 (s32 (o - e.offset)) [] e' o' := by
    rintro e' o' ⟨k, path', e₀, o₀, hpath, -⟩
    cases hpath
  set r := findElems subtype 0 v3 (s32 (o - e.offset)) bits with hr
  have htry : tryElem i e o bits =
      (((if s32 (o - e.offset) = 0 ∧ bits = u32 (total * BITS_PER_UNIT) then [[]] else []) ++
        r.1).map (i :: ·), r.2) := by
    unfold tryElem
    rw [hval]
    simp only [findConstructorElem, hsome, Bool.false_eq_true, if_false, ← hr]
  rw [htry]
  refine ⟨⟨fun h => ?_, ?_⟩, fun h path => ?_, fun h => ?_⟩
  · obtain ⟨path', e', o', htried, hfail⟩ := ha.fails.mp h
    exact ⟨i :: path', e', o', ⟨path', rfl, Or.inr ((hbelow _ _ _).mpr htried)⟩, hfail⟩
  · rintro ⟨path, e', o', ⟨path', -, ⟨-, rfl, rfl⟩ | htried⟩, hfail⟩
    · exact absurd hfail hfirst
    · exact ha.fails.mpr ⟨path', e', o', (hbelow _ _ _).mp htried, hfail⟩
  · constructor
    · intro hmem
      obtain ⟨path', hmem', rfl⟩ := List.mem_map.mp hmem
      rcases List.mem_append.mp hmem' with hwhole | hpart
      · by_cases hall : s32 (o - e.offset) = 0 ∧ bits = u32 (total * BITS_PER_UNIT)
        · rw [if_pos hall] at hwhole
          obtain rfl := List.mem_singleton.mp hwhole
          exact ⟨e, o, ⟨[], rfl, Or.inl ⟨rfl, rfl, rfl⟩⟩, hhit.mpr hall⟩
        · rw [if_neg hall] at hwhole
          cases hwhole
      · obtain ⟨e', o', htried, hhit'⟩ := (ha.notes h path').mp hpart
        exact ⟨e', o', ⟨path', rfl, Or.inr ((hbelow _ _ _).mpr htried)⟩, hhit'⟩
    · rintro ⟨e', o', ⟨path', rfl, ⟨rfl, rfl, rfl⟩ | htried⟩, hhit'⟩
      · refine List.mem_map.mpr ⟨[], List.mem_append_left _ ?_, rfl⟩
        rw [if_pos (hhit.mp hhit')]
        exact List.mem_singleton_self _
      · refine List.mem_map.mpr ⟨path', List.mem_append_right _ ?_, rfl⟩
        exact (ha.notes h path').mpr ⟨e', o', (hbelow _ _ _).mp htried, hhit'⟩
  · refine List.pairwise_map.mpr (List.Pairwise.imp (fun hlt => List.cons_lt_cons_iff.mpr
      (Or.inr ⟨rfl, hlt⟩)) ?_)
    split
    · refine List.pairwise_append.mpr ⟨List.pairwise_singleton .., ha.sorted h, ?_⟩
      intro path hpath path' hpath'
      obtain rfl := List.mem_singleton.mp hpath
      obtain ⟨e', o', htried, -⟩ := (ha.notes h path').mp hpath'
      cases path' with
      | nil => exact absurd htried (hnil e' o')
      | cons j path' => exact List.nil_lt_cons j path'
    · exact ha.sorted h

/-- The loop with one element more. -/
theorem answers_cons {subtype : Bool} {v3 : List DsvElem} {offset : Int}
    (helem : Answers bits (TriedAt bits i e offset) (tryElem i e offset bits))
    (hrest : ∀ offset', Answers bits (TriedFrom subtype bits (i + 1) v3 offset')
      (findElems subtype (i + 1) v3 offset' bits)) :
    Answers bits (TriedFrom subtype bits i (e :: v3) offset)
      (findElems subtype i (e :: v3) offset bits) := by
  by_cases hcont : e.Contains offset bits
  · have hzero : ∀ path e' o', (∃ path' e₀ o₀, path = i :: path' ∧
        Tries subtype bits (e :: v3) offset 0 e₀ o₀ ∧ TriedIn bits e₀ o₀ path' e' o') ↔
          TriedAt bits i e offset path e' o' := by
      intro path e' o'
      constructor
      · rintro ⟨path', e₀, o₀, hpath, htries, hin⟩
        obtain ⟨-, rfl, rfl⟩ := tries_zero.mp htries
        exact ⟨path', hpath, hin⟩
      · rintro ⟨path', hpath, hin⟩
        exact ⟨path', e, offset, hpath, tries_zero.mpr ⟨hcont, rfl, rfl⟩, hin⟩
    rw [findElems_try hcont]
    cases subtype with
    | false =>
      refine Answers.congr (P := TriedAt bits i e offset) ?_ fun path e' o' => ?_
      · cases herr : (tryElem i e offset bits).2 with
        | true =>
          refine ⟨⟨fun _ => helem.fails.mp herr, fun _ => rfl⟩, fun h => (by cases h),
            fun h => (by cases h)⟩
        | false =>
          refine ⟨⟨fun h => (by cases h), fun h => ?_⟩, fun _ => helem.notes herr,
            fun _ => helem.sorted herr⟩
          rw [helem.fails.mpr h] at herr
          cases herr
      · rw [← hzero]
        constructor
        · rintro ⟨k, path', e₀, o₀, hpath, htries, hin⟩
          cases k with
          | zero => exact ⟨path', e₀, o₀, hpath, htries, hin⟩
          | succ k => exact absurd htries (not_tries_after hcont)
        · rintro ⟨path', e₀, o₀, hpath, htries, hin⟩
          exact ⟨0, path', e₀, o₀, hpath, htries, hin⟩
    | true =>
      refine Answers.congr (helem.append (hrest (e.next bits offset)) ?_) fun path e' o' => ?_
      · rintro path e' o' path' e'' o'' ⟨path₁, rfl, -⟩ ⟨k, path₂, e₀, o₀, rfl, -⟩
        exact List.cons_lt_cons_iff.mpr (Or.inl (by omega))
      · rw [← hzero]
        constructor
        · rintro ⟨k, path', e₀, o₀, hpath, htries, hin⟩
          cases k with
          | zero => exact Or.inl ⟨path', e₀, o₀, hpath, htries, hin⟩
          | succ k =>
            refine Or.inr ⟨k, path', e₀, o₀, ?_, tries_next.mp htries, hin⟩
            rw [hpath, Nat.add_assoc, Nat.add_comm 1 k]
        · rintro (⟨path', e₀, o₀, hpath, htries, hin⟩ | ⟨k, path', e₀, o₀, hpath, htries, hin⟩)
          · exact ⟨0, path', e₀, o₀, hpath, htries, hin⟩
          · refine ⟨k + 1, path', e₀, o₀, ?_, tries_next.mpr htries, hin⟩
            rw [hpath, Nat.add_assoc, Nat.add_comm 1 k]
  · rw [findElems_skip hcont]
    refine Answers.congr (hrest offset) fun path e' o' => ?_
    constructor
    · rintro ⟨k, path', e₀, o₀, hpath, htries, hin⟩
      cases k with
      | zero => exact absurd (tries_zero.mp htries).1 hcont
      | succ k =>
        refine ⟨k, path', e₀, o₀, ?_, (tries_skip hcont).mp htries, hin⟩
        rw [hpath, Nat.add_assoc, Nat.add_comm 1 k]
    · rintro ⟨k, path', e₀, o₀, hpath, htries, hin⟩
      refine ⟨k + 1, path', e₀, o₀, ?_, (tries_skip hcont).mpr htries, hin⟩
      rw [hpath, Nat.add_assoc, Nat.add_comm 1 k]

end Answer

mutual
/-- One element. -/
theorem tryElem_answers (bits : Nat) : ∀ (val : DataStateVal) (fieldoffset : Int)
    (fieldbits i : Nat) (o : Int), Answers bits (TriedAt bits i ⟨fieldoffset, fieldbits, val⟩ o)
      (tryElem i ⟨fieldoffset, fieldbits, val⟩ o bits)
  | sec3 _ subtype _ v3, fieldoffset, fieldbits, i, o => by
    by_cases hne : v3 = []
    · exact answers_empty (by rw [hne]; rfl)
    · exact answers_constructor rfl hne (findElems_answers bits v3 subtype 0 _)
  | sec1 _ type _, _, _, _, _ => answers_other (by cases type <;> exact fun h => by cases h)
  | sec2 _ type _, _, _, _, _ => answers_other (by cases type <;> exact fun h => by cases h)
  | unk _, _, _, _, _ => answers_other (fun h => by cases h)

/-- **The loop fails exactly where an element that is tried does, and else notes those that are the
    range, in their order.** -/
theorem findElems_answers (bits : Nat) : ∀ (v3 : List DsvElem) (subtype : Bool) (i : Nat)
    (offset : Int), Answers bits (TriedFrom subtype bits i v3 offset)
      (findElems subtype i v3 offset bits)
  | [], subtype, i, offset => by
    rw [findElems]
    refine Answers.nothing ?_
    rintro path e o ⟨k, path', e₀, o₀, -, htries, -⟩
    have helem := htries.elem
    rw [List.getElem?_nil] at helem
    cases helem
  | ⟨fieldoffset, fieldbits, val⟩ :: v3, subtype, i, offset =>
    answers_cons (tryElem_answers bits val fieldoffset fieldbits i offset)
      fun offset' => findElems_answers bits v3 subtype (i + 1) offset'
end

/-! ## The whole value -/

/-- A value as the only element, from bit 0 on. -/
def rootElem (v : DataStateVal) : DsvElem :=
  match v with
  | sec3 _ _ total _ => ⟨0, total * BITS_PER_UNIT, v⟩
  | _ => ⟨0, 0, v⟩

/-- The search comes to `e`, the whole value included. -/
abbrev SearchAsks (bits : Nat) (v : DataStateVal) (offset : Int) :
    List Nat → DsvElem → Int → Prop :=
  TriedIn bits (rootElem v) offset

theorem rootElem_offset (v : DataStateVal) : (rootElem v).offset = 0 := by
  cases v <;> rfl

theorem s32_range (x : Int) : -2 ^ 31 ≤ s32 x ∧ s32 x < 2 ^ 31 := by
  unfold s32
  constructor
  · exact Int.le_bmod (by decide)
  · exact Int.bmod_lt (by decide)

theorem s32_of_range {x : Int} (hlo : -2 ^ 31 ≤ x) (hhi : x < 2 ^ 31) : s32 x = x := by
  unfold s32
  exact Int.bmod_eq_of_le (by omega) (by omega)

/-- **The search of a constructor.** -/
theorem findConstructorElem_answers {v : DataStateVal} {offset : Int} {bits : Nat}
    (hcons : v.isConstructor) (hlo : -2 ^ 31 ≤ offset) (hhi : offset < 2 ^ 31) :
    Answers bits (SearchAsks bits v offset) (v.findConstructorElem offset bits) := by
  have hs32 : s32 offset = offset := s32_of_range hlo hhi
  obtain ⟨raw, subtype, total, v3, rfl⟩ := isConstructor_iff.mp hcons
  have ha := tryElem_answers bits (sec3 raw subtype total v3) 0 (total * BITS_PER_UNIT) 0 offset
  have htry : tryElem 0 ⟨0, total * BITS_PER_UNIT, sec3 raw subtype total v3⟩ offset bits =
      ((findConstructorElem (sec3 raw subtype total v3) offset bits).1.map (0 :: ·),
        (findConstructorElem (sec3 raw subtype total v3) offset bits).2) := by
    unfold tryElem
    simp only [Int.sub_zero, hs32]
  rw [htry] at ha
  refine ⟨ha.fails.trans ?_, fun herr path => ?_, fun herr => ?_⟩
  · constructor
    · rintro ⟨path, e, o, ⟨path', -, hin⟩, hfail⟩
      exact ⟨path', e, o, hin, hfail⟩
    · rintro ⟨path, e, o, hin, hfail⟩
      exact ⟨0 :: path, e, o, ⟨path, rfl, hin⟩, hfail⟩
  · have hmem := ha.notes herr (0 :: path)
    simp only [List.mem_map, List.cons.injEq, true_and, exists_eq_right] at hmem
    rw [hmem]
    constructor
    · rintro ⟨e, o, ⟨path', hpath, hin⟩, hhit⟩
      cases hpath
      exact ⟨e, o, hin, hhit⟩
    · rintro ⟨e, o, hin, hhit⟩
      exact ⟨e, o, ⟨path, rfl, hin⟩, hhit⟩
  · refine (List.pairwise_map.mp (ha.sorted herr)).imp fun hlt => ?_
    rcases List.cons_lt_cons_iff.mp hlt with hlt | ⟨-, hlt⟩
    · exact absurd hlt (Nat.lt_irrefl 0)
    · exact hlt

end Srcinv.Analysis
