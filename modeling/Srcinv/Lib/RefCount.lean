import Mathlib.Algebra.BigOperators.Group.Finset.Basic
import Mathlib.Algebra.Order.BigOperators.Group.Finset
import Mathlib.Logic.Function.Basic

/-!
# Reference-counted heaps

Each cell has a counter and a value, and `refs` lists the cells that a value points at.  Dropping a
reference lowers the counter; with the last one the cell goes away and what its value points at is
dropped in turn.

* `Balanced` — every counter is the number of values that point at the cell, of its roots, and of
  the references that are still to be dropped; a cell is there exactly when this number is not 0.
* `Balanced.write`, `Balanced.hold`, `Balanced.alloc`, `Balanced.reroot` — the moves that keep it.
* `Balanced.drop` — **dropping comes back and keeps it**, however far it goes on, and the cells that
  stay keep their values.
* `Balanced.dropAll_propped` — cells that keep each other, by a root or in a circle, are not
  dropped with others.
* `Balanced.releaseAll`, `Balanced.unique` — dropping what was held on top of other references
  leaves all values, and with them all counters, as they were.
-/

namespace Srcinv.Lib

variable {ι α : Type*}

/-- A value and its counter. -/
structure Counted (α : Type*) where
  refcnt : Int
  val : α

/-- The cells that are there. -/
abbrev RcHeap (ι α : Type*) : Type _ := ι → Option (Counted α)

variable [DecidableEq ι] (refs : α → List ι)

/-- Drop a reference.  `none` says that there is no such cell; `fuel` bounds the recursion. -/
def rcDrop : Nat → RcHeap ι α → ι → Option (RcHeap ι α)
  | 0, _, _ => none
  | fuel + 1, h, i =>
    match h i with
    | none => none
    | some c =>
      if c.refcnt - 1 = 0 then (refs c.val).foldlM (rcDrop fuel) (Function.update h i none)
      else some (Function.update h i (some { c with refcnt := c.refcnt - 1 }))

/-- Add a reference. -/
def rcHold (h : RcHeap ι α) (i : ι) : Option (RcHeap ι α) :=
  (h i).map fun c => Function.update h i (some { c with refcnt := c.refcnt + 1 })

/-! ## Balance -/

/-- What a cell points at. -/
def cellRefs : Option (Counted α) → List ι
  | none => []
  | some c => refs c.val

/-- How many values point at a cell. -/
def pointers (S : Finset ι) (h : RcHeap ι α) (i : ι) : Nat :=
  ∑ j ∈ S, (cellRefs refs (h j)).count i

/-- All that counts for a cell. -/
def owners (S : Finset ι) (h : RcHeap ι α) (roots : ι → Nat) (pending : List ι) (i : ι) : Nat :=
  pointers refs S h i + roots i + pending.count i

/-- **Every counter is right, and a cell is there exactly when something counts for it.**  `S` are
    the cells that were ever made. -/
structure Balanced (S : Finset ι) (h : RcHeap ι α) (roots : ι → Nat) (pending : List ι) : Prop where
  made : ∀ i, (h i).isSome → i ∈ S
  right : ∀ i c, h i = some c → c.refcnt = owners refs S h roots pending i
  there : ∀ i, (h i).isSome ↔ 0 < owners refs S h roots pending i

/-- No cell is new, and the cells that stay keep their values. -/
def Shrinks (h h' : RcHeap ι α) : Prop :=
  ∀ i c', h' i = some c' → ∃ c, h i = some c ∧ c.val = c'.val

/-- The same cells are there, with the same values; the counters may differ. -/
def SameVals (h h' : RcHeap ι α) : Prop :=
  ∀ i, (h' i).map Counted.val = (h i).map Counted.val

/-- **Cells that keep each other**: all are there, and each has a root or is pointed at by one of
    them. -/
def Propped (h : RcHeap ι α) (roots : ι → Nat) (K : Set ι) : Prop :=
  ∀ i ∈ K, (h i).isSome ∧ (0 < roots i ∨ ∃ j ∈ K, ∃ c, h j = some c ∧ i ∈ refs c.val)

/-- How many cells there are. -/
def cellCount (S : Finset ι) (h : RcHeap ι α) : Nat := (S.filter fun i => (h i).isSome).card

variable {refs} {S : Finset ι} {h h' : RcHeap ι α} {roots roots' : ι → Nat}
  {pending pending' : List ι} {i : ι} {c : Counted α}

omit [DecidableEq ι] in
theorem Shrinks.refl (h : RcHeap ι α) : Shrinks h h := fun _ c' hc => ⟨c', hc, rfl⟩

omit [DecidableEq ι] in
theorem Shrinks.trans {h'' : RcHeap ι α} (h₁ : Shrinks h h') (h₂ : Shrinks h' h'') :
    Shrinks h h'' := by
  intro i c'' hc''
  obtain ⟨c', hc', hval'⟩ := h₂ i c'' hc''
  obtain ⟨c, hc, hval⟩ := h₁ i c' hc'
  exact ⟨c, hc, hval.trans hval'⟩

omit [DecidableEq ι] in
theorem Shrinks.cellCount_le (hs : Shrinks h h') : cellCount S h' ≤ cellCount S h := by
  refine Finset.card_le_card fun i hi => ?_
  obtain ⟨hmem, hsome⟩ := Finset.mem_filter.mp hi
  obtain ⟨c', hc'⟩ := Option.isSome_iff_exists.mp hsome
  obtain ⟨c, hc, -⟩ := hs i c' hc'
  exact Finset.mem_filter.mpr ⟨hmem, by rw [hc]; rfl⟩

omit [DecidableEq ι] in
theorem SameVals.refl (h : RcHeap ι α) : SameVals h h := fun _ => rfl

omit [DecidableEq ι] in
theorem SameVals.trans {h'' : RcHeap ι α} (h₁ : SameVals h h') (h₂ : SameVals h' h'') :
    SameVals h h'' :=
  fun i => (h₂ i).trans (h₁ i)

omit [DecidableEq ι] in
theorem SameVals.isSome (hs : SameVals h h') (i : ι) : (h' i).isSome = (h i).isSome := by
  rw [← Option.isSome_map (f := Counted.val), hs i, Option.isSome_map]

omit [DecidableEq ι] in
theorem SameVals.shrinks (hs : SameVals h h') : Shrinks h h' := by
  intro i c' hc'
  have hi := hs i
  rw [hc', Option.map_some] at hi
  exact Option.map_eq_some_iff.mp hi.symm

/-- Another counter. -/
theorem SameVals.update (hc : h i = some c) (n : Int) :
    SameVals h (Function.update h i (some { c with refcnt := n })) := by
  intro j
  by_cases hji : j = i
  · rw [hji, Function.update_self, hc]
    rfl
  · rw [Function.update_of_ne hji]

/-- The counters do not count for a cell. -/
theorem owners_of_same (hs : SameVals h h') (i : ι) :
    owners refs S h' roots pending i = owners refs S h roots pending i := by
  have hrefs : ∀ j, cellRefs refs (h' j) = cellRefs refs (h j) := by
    intro j
    have hj := hs j
    cases hc : h j with
    | none =>
      rw [hc, Option.map_none, Option.map_eq_none_iff] at hj
      rw [hj]
    | some c =>
      rw [hc, Option.map_some] at hj
      obtain ⟨c', hc', hval⟩ := Option.map_eq_some_iff.mp hj
      rw [hc', cellRefs, cellRefs, hval]
  unfold owners pointers
  simp only [hrefs]

/-- A sum over a function that is changed in one place. -/
theorem sum_update_add {β : Type*} {f : ι → β} (g : β → Nat) (hi : i ∈ S) (b : β) :
    (∑ j ∈ S, g (Function.update f i b j)) + g (f i) = (∑ j ∈ S, g (f j)) + g b := by
  rw [← Finset.add_sum_erase S _ hi, ← Finset.add_sum_erase S (fun j => g (f j)) hi,
    Function.update_self]
  have hrest : ∑ j ∈ S.erase i, g (Function.update f i b j) = ∑ j ∈ S.erase i, g (f j) :=
    Finset.sum_congr rfl fun j hj => by
      rw [Function.update_of_ne (Finset.ne_of_mem_erase hj)]
  omega

theorem pointers_update (refs : α → List ι) (hi : i ∈ S) (o : Option (Counted α)) (j : ι) :
    pointers refs S (Function.update h i o) j + (cellRefs refs (h i)).count j =
      pointers refs S h j + (cellRefs refs o).count j :=
  sum_update_add (fun o => (cellRefs refs o).count j) hi o

/-- Nothing points out of a cell that is not there. -/
theorem pointers_insert (hi : h i = none) (j : ι) :
    pointers refs (insert i S) h j = pointers refs S h j := by
  unfold pointers
  by_cases hmem : i ∈ S
  · rw [Finset.insert_eq_of_mem hmem]
  · rw [Finset.sum_insert hmem, hi]
    exact Nat.zero_add _

theorem pointers_pos (refs : α → List ι) {j : ι} (hj : j ∈ S) (hc : h j = some c)
    (hi : i ∈ refs c.val) :
    0 < pointers refs S h i := by
  have hcount : 0 < (cellRefs refs (h j)).count i := by
    rw [hc]
    exact List.count_pos_iff.mpr hi
  exact hcount.trans_le
    (Finset.single_le_sum (f := fun k => (cellRefs refs (h k)).count i) (fun _ _ => Nat.zero_le _)
      hj)

namespace Balanced

/-- What is pointed at is there. -/
theorem pointed (hb : Balanced refs S h roots pending) {j : ι} (hc : h j = some c)
    (hi : i ∈ refs c.val) : (h i).isSome := by
  apply (hb.there i).mpr
  have hpos := pointers_pos refs (hb.made j (by rw [hc]; rfl)) hc hi
  unfold owners
  omega

/-- A change that moves what counts for the cells around. -/
theorem move (hb : Balanced refs S h roots pending) (hmade : ∀ j, (h' j).isSome = (h j).isSome)
    (hcnt : ∀ j c, h' j = some c → ∃ c₀, h j = some c₀ ∧ c.refcnt = c₀.refcnt)
    (howners : ∀ j, owners refs S h' roots' pending' j = owners refs S h roots pending j) :
    Balanced refs S h' roots' pending' := by
  refine ⟨fun j hj => hb.made j (by rw [← hmade j]; exact hj), fun j c hc => ?_, fun j => ?_⟩
  · obtain ⟨c₀, hc₀, heq⟩ := hcnt j c hc
    rw [heq, howners]
    exact hb.right j c₀ hc₀
  · rw [hmade, howners]
    exact hb.there j

/-- Roots and references that are to be dropped count alike. -/
theorem reroot (hb : Balanced refs S h roots pending)
    (hsame : ∀ j, roots' j + pending'.count j = roots j + pending.count j) :
    Balanced refs S h roots' pending' := by
  refine hb.move (fun _ => rfl) (fun j c hc => ⟨c, hc, rfl⟩) fun j => ?_
  have := hsame j
  unfold owners
  omega

/-- Another value is written: what it points at more was to be dropped, and what it does not point
    at any more is. -/
theorem write (hb : Balanced refs S h roots pending) (hc : h i = some c) {w : α}
    (hsame : ∀ j, (refs w).count j + pending'.count j = (refs c.val).count j + pending.count j) :
    Balanced refs S (Function.update h i (some { c with val := w })) roots pending' := by
  refine hb.move (fun j => ?_) (fun j c' hc' => ?_) fun j => ?_
  · by_cases hj : j = i
    · rw [hj, Function.update_self, hc]
      rfl
    · rw [Function.update_of_ne hj]
  · by_cases hj : j = i
    · rw [hj, Function.update_self] at hc'
      cases hc'
      exact ⟨c, hj ▸ hc, rfl⟩
    · rw [Function.update_of_ne hj] at hc'
      exact ⟨c', hc', rfl⟩
  · have hpoint := pointers_update refs (hb.made i (by rw [hc]; rfl))
      (some { c with val := w }) j (h := h)
    rw [hc] at hpoint
    have := hsame j
    simp only [cellRefs] at hpoint
    unfold owners
    omega

/-- Another counter is written. -/
theorem recount (hb : Balanced refs S h roots pending) (hc : h i = some c) {n : Int}
    (hn : n = owners refs S h roots' pending' i) (hpos : 0 < owners refs S h roots' pending' i)
    (hother : ∀ j, j ≠ i → roots' j + pending'.count j = roots j + pending.count j) :
    Balanced refs S (Function.update h i (some { c with refcnt := n })) roots' pending' := by
  have hmem : i ∈ S := hb.made i (by rw [hc]; rfl)
  have howners : ∀ j, owners refs S (Function.update h i (some { c with refcnt := n })) roots'
      pending' j = owners refs S h roots' pending' j := owners_of_same (SameVals.update hc n)
  have hsame : ∀ j, j ≠ i → owners refs S h roots' pending' j =
        owners refs S h roots pending j := by
    intro j hj
    have := hother j hj
    unfold owners
    omega
  refine ⟨fun j hj => ?_, fun j c' hc' => ?_, fun j => ?_⟩
  · by_cases hji : j = i
    · exact hji ▸ hmem
    · rw [Function.update_of_ne hji] at hj
      exact hb.made j hj
  · rw [howners]
    by_cases hji : j = i
    · rw [hji, Function.update_self] at hc'
      cases hc'
      rw [hji]
      exact hn
    · rw [Function.update_of_ne hji] at hc'
      rw [hsame j hji]
      exact hb.right j c' hc'
  · rw [howners]
    by_cases hji : j = i
    · rw [hji, Function.update_self]
      exact ⟨fun _ => hpos, fun _ => rfl⟩
    · rw [Function.update_of_ne hji, hsame j hji]
      exact hb.there j

/-- A reference more, which is to be dropped some time. -/
theorem hold (hb : Balanced refs S h roots pending) (hc : h i = some c) :
    Balanced refs S (Function.update h i (some { c with refcnt := c.refcnt + 1 })) roots
      (i :: pending) := by
  have hmore : owners refs S h roots (i :: pending) i = owners refs S h roots pending i + 1 := by
    unfold owners
    rw [List.count_cons_self]
    omega
  refine hb.recount hc ?_ (by omega) fun j hj => ?_
  · rw [hmore, hb.right i c hc]
    rfl
  · rw [List.count_cons_of_ne (Ne.symm hj)]

/-- A new cell, with one reference and a value that points at nothing. -/
theorem alloc (hb : Balanced refs S h roots pending) (hi : h i = none) {v : α} (hv : refs v = []) :
    Balanced refs (insert i S) (Function.update h i (some ⟨1, v⟩)) roots (i :: pending) := by
  have hzero : owners refs S h roots pending i = 0 := by
    have hnot := mt (hb.there i).mpr (by rw [hi]; exact Bool.false_ne_true)
    omega
  have howners : ∀ j, owners refs (insert i S) (Function.update h i (some ⟨1, v⟩)) roots
      (i :: pending) j = owners refs S h roots pending j + if j = i then 1 else 0 := by
    intro j
    have hpoint := pointers_update refs (Finset.mem_insert_self i S) (some ⟨1, v⟩) j
      (h := h)
    rw [hi, pointers_insert hi] at hpoint
    simp only [cellRefs, hv, List.count_nil] at hpoint
    unfold owners
    by_cases hji : j = i
    · rw [hji, List.count_cons_self, if_pos rfl]
      rw [hji] at hpoint
      omega
    · rw [List.count_cons_of_ne (Ne.symm hji), if_neg hji]
      omega
  refine ⟨fun j hj => ?_, fun j c hc => ?_, fun j => ?_⟩
  · by_cases hji : j = i
    · exact hji ▸ Finset.mem_insert_self i S
    · rw [Function.update_of_ne hji] at hj
      exact Finset.mem_insert_of_mem (hb.made j hj)
  · rw [howners]
    by_cases hji : j = i
    · rw [hji, Function.update_self] at hc
      cases hc
      rw [hji, hzero, if_pos rfl]
      rfl
    · rw [Function.update_of_ne hji] at hc
      rw [if_neg hji]
      exact hb.right j c hc
  · rw [howners]
    by_cases hji : j = i
    · rw [hji, Function.update_self, if_pos rfl]
      exact ⟨fun _ => Nat.succ_pos _, fun _ => rfl⟩
    · rw [Function.update_of_ne hji, if_neg hji]
      exact hb.there j

/-! ## Dropping -/

/-- The cell whose last reference is dropped goes away; what it points at is to be dropped. -/
theorem erase (hb : Balanced refs S h roots (i :: pending)) (hc : h i = some c)
    (hlast : c.refcnt - 1 = 0) :
    Balanced refs S (Function.update h i none) roots (refs c.val ++ pending) := by
  have hmem : i ∈ S := hb.made i (by rw [hc]; rfl)
  have hone : owners refs S h roots (i :: pending) i = 1 := by
    have := hb.right i c hc
    omega
  have howners : ∀ j, owners refs S (Function.update h i none) roots (refs c.val ++ pending) j +
      (if j = i then 1 else 0) = owners refs S h roots (i :: pending) j := by
    intro j
    have hpoint := pointers_update refs hmem none j (h := h)
    rw [hc] at hpoint
    simp only [cellRefs, List.count_nil] at hpoint
    unfold owners
    rw [List.count_append]
    by_cases hji : j = i
    · rw [hji, List.count_cons_self, if_pos rfl]
      rw [hji] at hpoint
      omega
    · rw [List.count_cons_of_ne (Ne.symm hji), if_neg hji]
      omega
  refine ⟨fun j hj => ?_, fun j c' hc' => ?_, fun j => ?_⟩
  · by_cases hji : j = i
    · exact hji ▸ hmem
    · rw [Function.update_of_ne hji] at hj
      exact hb.made j hj
  · by_cases hji : j = i
    · rw [hji, Function.update_self] at hc'
      cases hc'
    · rw [Function.update_of_ne hji] at hc'
      have heq := howners j
      rw [if_neg hji] at heq
      rw [hb.right j c' hc', ← heq]
      rfl
  · have heq := howners j
    by_cases hji : j = i
    · rw [hji, if_pos rfl, hone] at heq
      rw [hji, Function.update_self]
      exact ⟨fun hno => absurd hno (by simp), fun hpos => by omega⟩
    · rw [if_neg hji] at heq
      rw [Function.update_of_ne hji, hb.there j, ← heq]
      rfl

theorem cellCount_erase (hb : Balanced refs S h roots pending) (hc : h i = some c) :
    cellCount S (Function.update h i none) + 1 = cellCount S h := by
  unfold cellCount
  have hmem : i ∈ S.filter fun j => (h j).isSome :=
    Finset.mem_filter.mpr ⟨hb.made i (by rw [hc]; rfl), by rw [hc]; rfl⟩
  have herase : (S.filter fun j => (Function.update h i none j).isSome) =
      (S.filter fun j => (h j).isSome).erase i := by
    ext j
    simp only [Finset.mem_filter, Finset.mem_erase]
    by_cases hji : j = i
    · simp [hji]
    · simp [hji]
  rw [herase, Finset.card_erase_add_one hmem]

/-- A reference is dropped, and others are left. -/
theorem release (hb : Balanced refs S h roots (i :: pending))
    (hother : 0 < owners refs S h roots pending i) (fuel : Nat) :
    ∃ h', rcDrop refs (fuel + 1) h i = some h' ∧ Balanced refs S h' roots pending ∧
      SameVals h h' := by
  have hless : owners refs S h roots (i :: pending) i = owners refs S h roots pending i + 1 := by
    unfold owners
    rw [List.count_cons_self]
    omega
  obtain ⟨c, hc⟩ := Option.isSome_iff_exists.mp ((hb.there i).mpr (by omega))
  have hright := hb.right i c hc
  refine ⟨_, ?_, hb.recount hc (n := c.refcnt - 1) (by omega) hother fun j hj => ?_,
    SameVals.update hc _⟩
  · rw [rcDrop]
    simp only [hc]
    exact if_neg (by omega)
  · rw [List.count_cons_of_ne (Ne.symm hj)]

/-- Several references are dropped, and each cell keeps another one. -/
theorem releaseAll {l : List ι} (hb : Balanced refs S h roots (l ++ pending))
    (hother : ∀ i ∈ l, 0 < owners refs S h roots pending i) (fuel : Nat) :
    ∃ h', l.foldlM (rcDrop refs (fuel + 1)) h = some h' ∧ Balanced refs S h' roots pending ∧
      SameVals h h' := by
  induction l generalizing h with
  | nil => exact ⟨h, rfl, hb, .refl h⟩
  | cons i l ih =>
    have hi : 0 < owners refs S h roots (l ++ pending) i := by
      have hpos := hother i List.mem_cons_self
      unfold owners at hpos ⊢
      rw [List.count_append]
      omega
    obtain ⟨h₁, hx, hb₁, hs₁⟩ := hb.release hi fuel
    obtain ⟨h₂, hxs, hb₂, hs₂⟩ := ih hb₁ fun j hj => by
      rw [owners_of_same hs₁]
      exact hother j (List.mem_cons_of_mem i hj)
    refine ⟨h₂, ?_, hb₂, hs₁.trans hs₂⟩
    rw [List.foldlM_cons, hx]
    exact hxs

/-- **The values and what counts for the cells make the counters.** -/
theorem unique (hb : Balanced refs S h roots pending) (hb' : Balanced refs S h' roots pending)
    (hs : SameVals h h') : h' = h := by
  funext i
  have hi := hs i
  cases hc : h i with
  | none =>
    rw [hc, Option.map_none, Option.map_eq_none_iff] at hi
    exact hi
  | some c =>
    rw [hc, Option.map_some] at hi
    obtain ⟨c', hc', hval⟩ := Option.map_eq_some_iff.mp hi
    have hcnt : c'.refcnt = c.refcnt := by
      rw [hb'.right i c' hc', hb.right i c hc, owners_of_same hs]
    rw [hc']
    exact congrArg some (by cases c; cases c'; cases hval; cases hcnt; rfl)

/-- **Dropping comes back and keeps the balance** as far as `fuel` goes. -/
def DropsUpTo (refs : α → List ι) (S : Finset ι) (roots : ι → Nat) (fuel : Nat) : Prop :=
  ∀ h pending i, Balanced refs S h roots (i :: pending) → cellCount S h ≤ fuel →
    ∃ h', rcDrop refs fuel h i = some h' ∧ Balanced refs S h' roots pending ∧ Shrinks h h'

theorem dropAll_of {fuel : Nat} (hdrop : DropsUpTo refs S roots fuel) {l : List ι}
    (hb : Balanced refs S h roots (l ++ pending)) (hfuel : cellCount S h ≤ fuel) :
    ∃ h', l.foldlM (rcDrop refs fuel) h = some h' ∧ Balanced refs S h' roots pending ∧
      Shrinks h h' := by
  induction l generalizing h with
  | nil => exact ⟨h, rfl, hb, .refl h⟩
  | cons i l ih =>
    obtain ⟨h₁, hx, hb₁, hs₁⟩ := hdrop h (l ++ pending) i hb hfuel
    obtain ⟨h₂, hxs, hb₂, hs₂⟩ := ih hb₁ (hs₁.cellCount_le.trans hfuel)
    refine ⟨h₂, ?_, hb₂, hs₁.trans hs₂⟩
    rw [List.foldlM_cons, hx]
    exact hxs

/-- The induction is on `fuel`: the cell that goes away is one less. -/
theorem dropsUpTo (fuel : Nat) : DropsUpTo refs S roots fuel := by
  induction fuel with
  | zero =>
    intro h pending i hb hfuel
    obtain ⟨c, hc⟩ := Option.isSome_iff_exists.mp ((hb.there i).mpr (by
      unfold owners
      rw [List.count_cons_self]
      omega))
    have := cellCount_erase hb hc
    omega
  | succ fuel ih =>
    intro h pending i hb hfuel
    have hpos : 0 < owners refs S h roots (i :: pending) i := by
      unfold owners
      rw [List.count_cons_self]
      omega
    obtain ⟨c, hc⟩ := Option.isSome_iff_exists.mp ((hb.there i).mpr hpos)
    by_cases hlast : c.refcnt - 1 = 0
    · have hcount := cellCount_erase hb hc
      obtain ⟨h', hx, hb', hs'⟩ := dropAll_of ih (hb.erase hc hlast) (by omega)
      have hdrop : rcDrop refs (fuel + 1) h i = some h' := by
        rw [rcDrop]
        simp only [hc, hlast, if_true]
        exact hx
      refine ⟨h', hdrop, hb', fun j c' hc' => ?_⟩
      obtain ⟨c₁, hc₁, hval⟩ := hs' j c' hc'
      by_cases hji : j = i
      · rw [hji, Function.update_self] at hc₁
        cases hc₁
      · rw [Function.update_of_ne hji] at hc₁
        exact ⟨c₁, hc₁, hval⟩
    · have hright := hb.right i c hc
      have hother : 0 < owners refs S h roots pending i := by
        unfold owners at hright ⊢
        rw [List.count_cons_self] at hright
        omega
      obtain ⟨h', hx, hb', hs'⟩ := hb.release hother fuel
      exact ⟨h', hx, hb', hs'.shrinks⟩

/-- **Dropping a reference comes back and keeps the balance** when `fuel` is not less than the
    number of cells. -/
theorem drop {fuel : Nat} (hb : Balanced refs S h roots (i :: pending))
    (hfuel : cellCount S h ≤ fuel) : ∃ h', rcDrop refs fuel h i = some h' ∧
      Balanced refs S h' roots pending ∧ Shrinks h h' :=
  dropsUpTo fuel h pending i hb hfuel

/-- Dropping several, one after the other. -/
theorem dropAll {fuel : Nat} {l : List ι} (hb : Balanced refs S h roots (l ++ pending))
    (hfuel : cellCount S h ≤ fuel) : ∃ h', l.foldlM (rcDrop refs fuel) h = some h' ∧
      Balanced refs S h' roots pending ∧ Shrinks h h' :=
  dropAll_of (dropsUpTo fuel) hb hfuel

/-- Cells that keep each other have something that counts for them. -/
theorem owners_of_propped (hb : Balanced refs S h roots pending) {K : Set ι}
    (hK : Propped refs h roots K) (hi : i ∈ K) : 0 < owners refs S h roots pending' i := by
  unfold owners
  rcases (hK i hi).2 with hroot | ⟨j, -, c, hc, hmem⟩
  · omega
  · have hpos := pointers_pos refs (hb.made j (by rw [hc]; rfl)) hc hmem
    omega

omit [DecidableEq ι] in
theorem propped_of_same {K : Set ι} (hK : Propped refs h roots K) (hs : SameVals h h') :
    Propped refs h' roots K := by
  intro i hi
  obtain ⟨hthere, howner⟩ := hK i hi
  refine ⟨by rw [hs.isSome]; exact hthere, howner.imp_right ?_⟩
  rintro ⟨j, hj, c, hc, hmem⟩
  have hval := hs j
  rw [hc, Option.map_some] at hval
  obtain ⟨c', hc', heq⟩ := Option.map_eq_some_iff.mp hval
  exact ⟨j, hj, c', hc', by rw [heq]; exact hmem⟩

/-- **Cells that keep each other survive a drop**, if a drop up to `fuel` does that. -/
def PropsUpTo (refs : α → List ι) (S : Finset ι) (roots : ι → Nat) (K : Set ι) (fuel : Nat) :
    Prop :=
  ∀ h h' pending i, Balanced refs S h roots (i :: pending) → cellCount S h ≤ fuel →
    Propped refs h roots K → rcDrop refs fuel h i = some h' → Propped refs h' roots K

theorem dropAll_propped_of {K : Set ι} {fuel : Nat} (hprop : PropsUpTo refs S roots K fuel)
    {l : List ι} (hb : Balanced refs S h roots (l ++ pending)) (hfuel : cellCount S h ≤ fuel)
    (hK : Propped refs h roots K) (hx : l.foldlM (rcDrop refs fuel) h = some h') :
    Propped refs h' roots K := by
  induction l generalizing h with
  | nil =>
    cases hx
    exact hK
  | cons i l ih =>
    rw [List.foldlM_cons] at hx
    obtain ⟨h₁, hx₁, hx⟩ := Option.bind_eq_some_iff.mp hx
    obtain ⟨h₂, hx₂, hb₁, hs₁⟩ := dropsUpTo fuel h (l ++ pending) i hb hfuel
    cases hx₁.symm.trans hx₂
    exact ih hb₁ (hs₁.cellCount_le.trans hfuel) (hprop h h₁ _ i hb hfuel hK hx₁) hx

/-- The induction is on `fuel`; what goes away has no reference but the one that is dropped, and so
    is none of these cells. -/
theorem propsUpTo (K : Set ι) (fuel : Nat) : PropsUpTo refs S roots K fuel := by
  induction fuel with
  | zero =>
    intro h h' pending i hb hfuel hK hx
    cases hx
  | succ fuel ih =>
    intro h h' pending i hb hfuel hK hx
    rw [rcDrop] at hx
    split at hx
    · cases hx
    · rename_i c hc
      split at hx
      · rename_i hlast
        have hnot : i ∉ K := by
          intro hi
          have hpos : 1 ≤ owners refs S h roots pending i := hb.owners_of_propped hK hi
          have hright := hb.right i c hc
          unfold owners at hpos hright
          rw [List.count_cons_self] at hright
          omega
        have hcount := cellCount_erase hb hc
        refine dropAll_propped_of ih (hb.erase hc hlast) (by omega) (fun k hk => ?_) hx
        have hne : k ≠ i := fun heq => hnot (heq ▸ hk)
        obtain ⟨hthere, howner⟩ := hK k hk
        rw [Function.update_of_ne hne]
        refine ⟨hthere, howner.imp_right ?_⟩
        rintro ⟨j, hj, c', hc', hmem⟩
        have hj' : j ≠ i := fun heq => hnot (heq ▸ hj)
        exact ⟨j, hj, c', by rw [Function.update_of_ne hj']; exact hc', hmem⟩
      · cases hx
        exact propped_of_same hK (SameVals.update hc _)

/-- **Cells that keep each other survive, whatever is dropped.** -/
theorem dropAll_propped {K : Set ι} {fuel : Nat} {l : List ι}
    (hb : Balanced refs S h roots (l ++ pending)) (hfuel : cellCount S h ≤ fuel)
    (hK : Propped refs h roots K) (hx : l.foldlM (rcDrop refs fuel) h = some h') :
    Propped refs h' roots K :=
  dropAll_propped_of (propsUpTo K fuel) hb hfuel hK hx

/-- Holding several. -/
theorem holdAll {l : List ι} (hb : Balanced refs S h roots pending) (hl : ∀ i ∈ l, (h i).isSome) :
    ∃ h', l.foldlM rcHold h = some h' ∧ Balanced refs S h' roots (l ++ pending) ∧
      SameVals h h' := by
  induction l generalizing h pending with
  | nil => exact ⟨h, rfl, hb, fun _ => rfl⟩
  | cons i l ih =>
    obtain ⟨c, hc⟩ := Option.isSome_iff_exists.mp (hl i List.mem_cons_self)
    have hkeep := SameVals.update hc (c.refcnt + 1)
    obtain ⟨h', hx, hb', hsame⟩ := ih (hb.hold hc) fun j hj => by
      rw [hkeep.isSome]
      exact hl j (List.mem_cons_of_mem i hj)
    refine ⟨h', ?_, hb'.reroot fun j => ?_, hkeep.trans hsame⟩
    · rw [List.foldlM_cons, rcHold, hc]
      exact hx
    · rw [List.cons_append, List.count_cons, List.count_append, List.count_append, List.count_cons]
      omega

end Balanced

end Srcinv.Lib
