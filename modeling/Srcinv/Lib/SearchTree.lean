import Mathlib.Data.List.Pairwise
import Mathlib.Order.Basic
import Mathlib.Tactic.TypeStar

/-!
# Search trees that are walked by a probe

A walk down a search tree asks a *probe* at each node how the element there compares with what
is looked for, and goes left on `gt`, right on `lt`.  The order the tree was built with does not
appear in the walk, so the same tree can be walked by a probe that looks at a part of the key.

* `SearchTree.find`, `SearchTree.link` — look up, and hang a new leaf where the walk ends.
* `SearchTree.find_of_mem` — a walk by a probe that ascends along the tree misses nothing.
* `SearchTree.link_order` — a new leaf keeps every order that agrees with the walk.
* `SearchTree.Sorted` — the strict order by a key; `find_key` and `link_key` are the two
  operations by that key.
-/

namespace Srcinv.Lib

variable {α κ : Type*}

inductive SearchTree (α : Type*) where
  | nil
  | node (l : SearchTree α) (a : α) (r : SearchTree α)
  deriving DecidableEq, Repr

namespace SearchTree

/-- The elements in order. -/
def toList : SearchTree α → List α
  | nil => []
  | node l a r => l.toList ++ a :: r.toList

/-- Walk down by `probe`, which compares an element with what is looked for. -/
def find (probe : α → Ordering) : SearchTree α → Option α
  | nil => none
  | node l a r =>
    match probe a with
    | .gt => l.find probe
    | .lt => r.find probe
    | .eq => some a

/-- Hang `x` where the walk ends; `none` when it meets an equal element. -/
def link (probe : α → Ordering) (x : α) : SearchTree α → Option (SearchTree α)
  | nil => some (node nil x nil)
  | node l a r =>
    match probe a with
    | .gt => (l.link probe x).map fun l => node l a r
    | .lt => (r.link probe x).map fun r => node l a r
    | .eq => none

@[simp] theorem toList_nil : (nil : SearchTree α).toList = [] := rfl

@[simp] theorem toList_node (l : SearchTree α) (a : α) (r : SearchTree α) :
    (node l a r).toList = l.toList ++ a :: r.toList := rfl

variable {probe : α → Ordering} {t t' : SearchTree α} {a b x : α}

/-! ## Looking up -/

theorem find_some (h : t.find probe = some a) : a ∈ t.toList ∧ probe a = .eq := by
  induction t with
  | nil => cases h
  | node l b r ihl ihr =>
    simp only [toList_node, List.mem_append, List.mem_cons]
    unfold find at h
    split at h
    · exact ⟨Or.inl (ihl h).1, (ihl h).2⟩
    · exact ⟨Or.inr (Or.inr (ihr h).1), (ihr h).2⟩
    · rename_i heq
      cases h
      exact ⟨Or.inr (Or.inl rfl), heq⟩

/-- A probe ascends along a list: once it says `gt` it goes on so, and all is `lt` before `lt`. -/
def Ascends (probe : α → Ordering) (l : List α) : Prop :=
  l.Pairwise fun a b => (probe a = .gt → probe b = .gt) ∧ (probe b = .lt → probe a = .lt)

/-- **A walk by an ascending probe misses nothing.** -/
theorem find_of_mem (hasc : Ascends probe t.toList) (ha : a ∈ t.toList) (heq : probe a = .eq) :
    ∃ b, t.find probe = some b := by
  induction t with
  | nil => cases ha
  | node l c r ihl ihr =>
    obtain ⟨hl, hcr, hlc⟩ := List.pairwise_append.mp hasc
    obtain ⟨hc, hr⟩ := List.pairwise_cons.mp hcr
    simp only [toList_node, List.mem_append, List.mem_cons] at ha
    unfold find
    cases hprobe : probe c with
    | eq => exact ⟨c, rfl⟩
    | gt =>
      -- an equal element cannot be at `c` or right of it
      obtain ha | rfl | ha := ha
      · exact ihl hl ha
      · rw [hprobe] at heq
        cases heq
      · have hgt := (hc a ha).1 hprobe
        rw [hgt] at heq
        cases heq
    | lt =>
      obtain ha | rfl | ha := ha
      · have hlt := (hlc a ha c List.mem_cons_self).2 hprobe
        rw [hlt] at heq
        cases heq
      · rw [hprobe] at heq
        cases heq
      · exact ihr hr ha

/-- A walk looks only at what its probe says of the elements. -/
theorem find_congr {probe' : α → Ordering} (h : ∀ a ∈ t.toList, probe a = probe' a) :
    t.find probe = t.find probe' := by
  induction t with
  | nil => rfl
  | node l a r ihl ihr =>
    simp only [toList_node, List.mem_append, List.mem_cons] at h
    unfold find
    rw [h a (Or.inr (Or.inl rfl)), ihl fun b hb => h b (Or.inl hb),
      ihr fun b hb => h b (Or.inr (Or.inr hb))]

/-! ## Hanging a leaf -/

/-- A new leaf adds itself. -/
theorem mem_link (h : t.link probe x = some t') : a ∈ t'.toList ↔ a = x ∨ a ∈ t.toList := by
  induction t generalizing t' with
  | nil =>
    cases h
    simp
  | node l b r ihl ihr =>
    unfold link at h
    split at h
    · obtain ⟨l', hl, rfl⟩ := Option.map_eq_some_iff.mp h
      simp only [toList_node, List.mem_append, ihl hl, or_assoc]
    · obtain ⟨r', hr, rfl⟩ := Option.map_eq_some_iff.mp h
      simp only [toList_node, List.mem_append, List.mem_cons, ihr hr]
      exact (or_congr_right or_left_comm).trans or_left_comm
    · cases h

/-- **A new leaf keeps every order that agrees with the walk.** -/
theorem link_order {R : α → α → Prop} (hgt : ∀ a ∈ t.toList, probe a = .gt → R x a)
    (hlt : ∀ a ∈ t.toList, probe a = .lt → R a x) (htrans : ∀ a b c, R a b → R b c → R a c)
    (ht : t.toList.Pairwise R) (h : t.link probe x = some t') : t'.toList.Pairwise R := by
  induction t generalizing t' with
  | nil =>
    cases h
    exact List.pairwise_singleton R x
  | node l b r ihl ihr =>
    obtain ⟨hl, hbr, hlb⟩ := List.pairwise_append.mp ht
    obtain ⟨hb, hr⟩ := List.pairwise_cons.mp hbr
    simp only [toList_node, List.mem_append, List.mem_cons] at hgt hlt
    unfold link at h
    split at h
    · rename_i hprobe
      have hxb := hgt b (Or.inr (Or.inl rfl)) hprobe
      obtain ⟨l', hl', rfl⟩ := Option.map_eq_some_iff.mp h
      refine List.pairwise_append.mpr ⟨ihl (fun a ha => hgt a (Or.inl ha))
        (fun a ha => hlt a (Or.inl ha)) hl hl', hbr, fun a ha c hc => ?_⟩
      obtain rfl | ha := (mem_link hl').mp ha
      · obtain rfl | hc := List.mem_cons.mp hc
        · exact hxb
        · exact htrans _ _ _ hxb (hb c hc)
      · exact hlb a ha c hc
    · rename_i hprobe
      have hbx := hlt b (Or.inr (Or.inl rfl)) hprobe
      obtain ⟨r', hr', rfl⟩ := Option.map_eq_some_iff.mp h
      refine List.pairwise_append.mpr ⟨hl, List.pairwise_cons.mpr ⟨fun c hc => ?_,
        ihr (fun a ha => hgt a (Or.inr (Or.inr ha))) (fun a ha => hlt a (Or.inr (Or.inr ha)))
          hr hr'⟩, fun a ha c hc => ?_⟩
      · obtain rfl | hc := (mem_link hr').mp hc
        · exact hbx
        · exact hb c hc
      · obtain rfl | hc := List.mem_cons.mp hc
        · exact hlb a ha c List.mem_cons_self
        obtain rfl | hc := (mem_link hr').mp hc
        · exact htrans _ _ _ (hlb a ha b List.mem_cons_self) hbx
        · exact hlb a ha c (List.mem_cons_of_mem _ hc)
    · cases h

/-- A leaf is hung exactly where looking up finds nothing. -/
theorem link_isSome_iff : (t.link probe x).isSome ↔ t.find probe = none := by
  induction t with
  | nil => simp [link, find]
  | node l a r ihl ihr =>
    unfold link find
    cases probe a with
    | gt => simp [ihl]
    | lt => simp [ihr]
    | eq => simp

/-! ## Trees sorted by a key -/

section Key

variable [Ord κ] {key : α → κ}

/-- The keys ascend strictly: a binary search tree. -/
def Sorted (key : α → κ) (t : SearchTree α) : Prop :=
  t.toList.Pairwise fun a b => compare (key a) (key b) = .lt

/-- Only the order of the elements and their keys matter. -/
theorem sorted_congr {key' : α → κ} {t' : SearchTree α} (hlist : t'.toList = t.toList)
    (hkey : ∀ a ∈ t.toList, key' a = key a) (h : t.Sorted key) : t'.Sorted key' := by
  unfold SearchTree.Sorted
  rw [hlist]
  refine List.Pairwise.imp_of_mem (fun {a b} ha hb hab => ?_) h
  rw [hkey a ha, hkey b hb]
  exact hab

variable [Std.TransOrd κ]

/-- The comparison with a key ascends along a sorted tree. -/
theorem Sorted.ascends (h : Sorted key t) (k : κ) :
    Ascends (fun a => compare (key a) k) t.toList := by
  refine List.Pairwise.imp (fun {a b} hab => ⟨fun ha => ?_, fun hb => ?_⟩) h
  · exact Std.OrientedCmp.gt_of_lt
      (Std.TransCmp.lt_trans (Std.OrientedCmp.lt_of_gt ha) hab)
  · exact Std.TransCmp.lt_trans hab hb

/-- Two elements of a sorted tree with one key are the same. -/
theorem Sorted.unique (h : Sorted key t) (ha : a ∈ t.toList) (hb : b ∈ t.toList)
    (hk : compare (key a) (key b) = .eq) : a = b := by
  have hirr : ∀ c d, compare (key c) (key d) = .lt → compare (key c) (key d) ≠ .eq := by
    intro c d hlt heq
    rw [hlt] at heq
    cases heq
  induction t with
  | nil => cases ha
  | node l c r ihl ihr =>
    obtain ⟨hl, hcr, hlc⟩ := List.pairwise_append.mp h
    obtain ⟨hc, hr⟩ := List.pairwise_cons.mp hcr
    simp only [toList_node, List.mem_append] at ha hb
    have hk' := Std.OrientedCmp.eq_symm hk
    obtain ha | ha := ha
    · obtain hb | hb := hb
      · exact ihl hl ha hb
      · exact absurd hk (hirr _ _ (hlc a ha b hb))
    · obtain hb | hb := hb
      · exact absurd hk' (hirr _ _ (hlc b hb a ha))
      obtain hac | ha := List.mem_cons.mp ha
      · obtain hbc | hb := List.mem_cons.mp hb
        · exact hac.trans hbc.symm
        · exact absurd (hac ▸ hk) (hirr _ _ (hc b hb))
      · obtain hbc | hb := List.mem_cons.mp hb
        · exact absurd (hbc ▸ hk') (hirr _ _ (hc a ha))
        · exact ihr hr ha hb

/-- **Looking a key up finds the element that has it.** -/
theorem find_key (h : Sorted key t) {k : κ} :
    t.find (fun a => compare (key a) k) = some a ↔
      a ∈ t.toList ∧ compare (key a) k = .eq := by
  constructor
  · exact find_some
  · rintro ⟨ha, hk⟩
    obtain ⟨b, hb⟩ := find_of_mem (h.ascends k) ha hk
    obtain ⟨hmem, hbk⟩ := find_some hb
    rw [hb, h.unique hmem ha (Std.TransCmp.eq_trans hbk (Std.OrientedCmp.eq_symm hk))]

/-- **Hanging a leaf by its key keeps the tree sorted.** -/
theorem link_key (h : Sorted key t) (hl : t.link (fun a => compare (key a) (key x)) x = some t') :
    Sorted key t' :=
  link_order (fun _ _ ha => Std.OrientedCmp.lt_of_gt ha) (fun _ _ ha => ha)
    (fun _ _ _ hab hbc => Std.TransCmp.lt_trans hab hbc) h hl

end Key

end SearchTree

end Srcinv.Lib
