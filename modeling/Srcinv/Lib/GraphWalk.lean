import Mathlib.Data.List.Nodup
import Mathlib.Data.List.Perm.Subperm
import Mathlib.Logic.Relation

/-!
# A depth first walk that marks what it has seen

The walk enters a node that is not marked, marks it, and goes on with its successors.  The marks are
a list in the order in which the nodes were entered.

* `Marks.reached` — **a walk from an empty list enters what can be reached, each node once.**
* `Marks.reachesFew`, `Overflows.not_reachesFew` — from an empty list it has enough marks exactly
  when few nodes can be reached.
-/

namespace Srcinv.Lib

variable {α : Type*} {next : α → List α} {os os' seen seen' seen'' : List α} {o a : α} {n : Nat}

/-- What can be reached from a node. -/
def Reaches (next : α → List α) : α → α → Prop := Relation.ReflTransGen fun a b => b ∈ next a

theorem Reaches.refl (o : α) : Reaches next o o := Relation.ReflTransGen.refl

theorem Reaches.head {b : α} (hb : b ∈ next o) (h : Reaches next b a) : Reaches next o a :=
  Relation.ReflTransGen.head hb h

/-- What is marked, or can be reached from one of the roots. -/
def Near (next : α → List α) (os seen : List α) (a : α) : Prop :=
  a ∈ seen ∨ ∃ o ∈ os, Reaches next o a

theorem Near.mono (hos : ∀ o ∈ os, o ∈ os') (h : Near next os seen a) : Near next os' seen a :=
  h.imp_right fun ⟨o, ho, hr⟩ => ⟨o, hos o ho, hr⟩

/-- The marks after visits of `os`, from those before. -/
structure Marks (next : α → List α) (os seen seen' : List α) : Prop where
  nodup : seen'.Nodup
  mono : ∀ a ∈ seen, a ∈ seen'
  near : ∀ a ∈ seen', Near next os seen a
  roots : ∀ o ∈ os, o ∈ seen'
  closed : ∀ a ∈ seen', a ∈ seen ∨ ∀ b ∈ next a, b ∈ seen'

/-- More nodes than there may be are marked or can be reached. -/
def Overflows (next : α → List α) (n : Nat) (os seen : List α) : Prop :=
  ∃ l : List α, l.Nodup ∧ n ≤ l.length ∧ ∀ a ∈ l, Near next os seen a

/-- Fewer than `n` nodes can be reached. -/
def ReachesFew (next : α → List α) (o : α) (n : Nat) : Prop :=
  ∀ l : List α, l.Nodup → (∀ a ∈ l, Reaches next o a) → l.length < n

/-! ## The rules of the walk -/

namespace Marks

theorem nil (h : seen.Nodup) : Marks next [] seen seen :=
  ⟨h, fun _ ha => ha, fun _ ha => Or.inl ha, fun _ ho => (by cases ho), fun _ ha => Or.inl ha⟩

/-- A node that is marked is left alone. -/
theorem marked (h : seen.Nodup) (ho : o ∈ seen) : Marks next [o] seen seen :=
  ⟨h, fun _ ha => ha, fun _ ha => Or.inl ha,
    fun a ha => by rw [List.mem_singleton.mp ha]; exact ho, fun _ ha => Or.inl ha⟩

/-- What is near after some visits was near before. -/
theorem near_of (h : Marks next os seen seen') (ha : Near next os' seen' a) :
    Near next (os ++ os') seen a := by
  rcases ha with ha | ⟨o, ho, hr⟩
  · exact (h.near a ha).mono fun o ho => List.mem_append_left os' ho
  · exact Or.inr ⟨o, List.mem_append_right os ho, hr⟩

/-- One visit after the other. -/
theorem append (h : Marks next os seen seen') (h' : Marks next os' seen' seen'') :
    Marks next (os ++ os') seen seen'' where
  nodup := h'.nodup
  mono a ha := h'.mono a (h.mono a ha)
  near a ha := h.near_of (h'.near a ha)
  roots o ho := by
    rcases List.mem_append.mp ho with ho | ho
    · exact h'.mono o (h.roots o ho)
    · exact h'.roots o ho
  closed a ha := by
    rcases h'.closed a ha with hold | hnew
    · exact (h.closed a hold).imp_right fun hb b hmem => h'.mono b (hb b hmem)
    · exact Or.inr hnew

end Marks

/-- What is near inside a node was near before it was entered. -/
theorem Near.of_enter (h : Near next (next o) (seen ++ [o]) a) : Near next [o] seen a := by
  rcases h with ha | ⟨b, hb, hr⟩
  · rcases List.mem_append.mp ha with ha | ha
    · exact Or.inl ha
    · exact Or.inr ⟨o, List.mem_singleton_self o, by rw [List.mem_singleton.mp ha]; exact .refl o⟩
  · exact Or.inr ⟨o, List.mem_singleton_self o, hr.head hb⟩

/-- A node is entered: it is marked, and its successors are visited. -/
theorem Marks.enter (h : Marks next (next o) (seen ++ [o]) seen') :
    Marks next [o] seen seen' where
  nodup := h.nodup
  mono a ha := h.mono a (List.mem_append_left [o] ha)
  near a ha := (h.near a ha).of_enter
  roots a ha := h.mono a (List.mem_append_right seen ha)
  closed a ha := by
    rcases h.closed a ha with hold | hnew
    · rcases List.mem_append.mp hold with ha | ha
      · exact Or.inl ha
      · rw [List.mem_singleton.mp ha]
        exact Or.inr h.roots
    · exact Or.inr hnew

namespace Overflows

theorem mono (hos : ∀ o ∈ os, o ∈ os') (h : Overflows next n os seen) :
    Overflows next n os' seen := by
  obtain ⟨l, hl, hn, hnear⟩ := h
  exact ⟨l, hl, hn, fun a ha => (hnear a ha).mono hos⟩

theorem append (h : Marks next os seen seen') (h' : Overflows next n os' seen') :
    Overflows next n (os ++ os') seen := by
  obtain ⟨l, hl, hn, hnear⟩ := h'
  exact ⟨l, hl, hn, fun a ha => h.near_of (hnear a ha)⟩

theorem enter (h : Overflows next n (next o) (seen ++ [o])) : Overflows next n [o] seen := by
  obtain ⟨l, hl, hn, hnear⟩ := h
  exact ⟨l, hl, hn, fun a ha => (hnear a ha).of_enter⟩

/-- There is no mark left for a node. -/
theorem full (h : seen.Nodup) (ho : o ∉ seen) (hn : n ≤ seen.length + 1) :
    Overflows next n [o] seen := by
  refine ⟨seen ++ [o], ?_, by rwa [List.length_append], fun a ha => ?_⟩
  · exact h.append (List.nodup_singleton o) fun a ha ha' => ho (List.mem_singleton.mp ha' ▸ ha)
  · exact Near.of_enter (Or.inl ha)

end Overflows

/-! ## Walks from an empty list -/

theorem near_nil : Near next [o] [] a ↔ Reaches next o a := by
  constructor
  · rintro (ha | ⟨b, hb, hr⟩)
    · cases ha
    · rwa [List.mem_singleton.mp hb] at hr
  · exact fun hr => Or.inr ⟨o, List.mem_singleton_self o, hr⟩

/-- **What was entered from an empty list is what can be reached.** -/
theorem Marks.reached (h : Marks next [o] [] seen') : a ∈ seen' ↔ Reaches next o a := by
  constructor
  · exact fun ha => near_nil.mp (h.near a ha)
  · intro hr
    induction hr with
    | refl => exact h.roots o (List.mem_singleton_self o)
    | tail _ hbc ih =>
      rcases h.closed _ ih with hold | hnew
      · cases hold
      · exact hnew _ hbc

theorem Marks.reachesFew (h : Marks next [o] [] seen') (hn : seen'.length < n) :
    ReachesFew next o n := by
  intro l hl hreach
  have hsub : l.Subperm seen' := hl.subperm fun a ha => h.reached.mpr (hreach a ha)
  exact Nat.lt_of_le_of_lt hsub.length_le hn

theorem Overflows.not_reachesFew (h : Overflows next n [o] []) : ¬ ReachesFew next o n := by
  obtain ⟨l, hl, hn, hnear⟩ := h
  exact fun hfew => Nat.not_lt.mpr hn (hfew l hl fun a ha => near_nil.mp (hnear a ha))

/-- Few nodes are reached when all of them are among those of a list with one that is not. -/
theorem reachesFew_of_missing {objs : List α} (h : ∀ a, Reaches next o a → a ∈ objs) {x : α}
    (hx : x ∈ objs) (hno : ¬ Reaches next o x) : ReachesFew next o objs.length := by
  intro l hl hreach
  have hnot : x ∉ l := fun hmem => hno (hreach x hmem)
  have hsub : (x :: l).Subperm objs := by
    refine (List.nodup_cons.mpr ⟨hnot, hl⟩).subperm fun a ha => ?_
    rcases List.mem_cons.mp ha with rfl | ha
    · exact hx
    · exact h a (hreach a ha)
  exact hsub.length_le

end Srcinv.Lib
