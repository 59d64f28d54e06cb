import Mathlib.Data.List.Induction
import Mathlib.Data.List.Infix

/-!
# Layouts of nested parts

A layout tells where the parts of a value lie: the members of a product, the alternatives of a
union, and so on inside of them.  A part is named by the numbers of the members that lead to it,
from the whole on.

* `Layout.Holds` — a range of bits lies in a part and in all parts around it.
* `Layout.Straight` — of a product one member at most holds the range, and an alternative that
  holds it starts where its union does.
* `Layout.Nested` — members lie in what they are members of, those of a product side by side; there
  `Nested.holds_iff` and `Nested.straight` leave of both what can be read off the ends.
-/

namespace Srcinv.Lib

/-- What a part is: without members by its nature, or because it happens to have none. -/
inductive PartKind where
  | leaf
  | empty
  | product
  | union
  deriving DecidableEq, Repr

structure Place where
  pos : Int
  bits : Nat
  kind : PartKind
  deriving DecidableEq, Repr

namespace Place

/-- The range lies in the part. -/
def Covers (p : Place) (offset : Int) (bits : Nat) : Prop :=
  p.pos ≤ offset ∧ offset + bits ≤ p.pos + p.bits

/-- The part is the range. -/
def Is (p : Place) (offset : Int) (bits : Nat) : Prop :=
  p.pos = offset ∧ p.bits = bits

/-- Nothing is inside of the part. -/
def Bottom (p : Place) : Prop :=
  p.kind = .leaf ∨ p.kind = .empty

theorem Is.covers {p : Place} {offset : Int} {bits : Nat} (h : p.Is offset bits) :
    p.Covers offset bits := by
  obtain ⟨rfl, rfl⟩ := h
  exact ⟨Int.le_refl _, Int.le_refl _⟩

end Place

/-- The places of the parts. -/
abbrev Layout : Type := List Nat → Option Place

/-- What holds of all nonempty starts of a path, member by member. -/
theorem forall_prefix_cons {P : List Nat → Prop} {i : Nat} {path : List Nat} :
    (∀ start, start ≠ [] → start <+: i :: path → P start) ↔
      P [i] ∧ ∀ start, start ≠ [] → start <+: path → P (i :: start) := by
  constructor
  · intro h
    refine ⟨h [i] (List.cons_ne_nil i []) ?_, fun start _ hpre => ?_⟩
    · exact List.cons_prefix_cons.mpr ⟨rfl, List.nil_prefix⟩
    · exact h (i :: start) (List.cons_ne_nil i start) (List.cons_prefix_cons.mpr ⟨rfl, hpre⟩)
  · rintro ⟨hfirst, hrest⟩ start hne hpre
    cases start with
    | nil => exact absurd rfl hne
    | cons j start =>
      obtain ⟨rfl, hpre'⟩ := List.cons_prefix_cons.mp hpre
      by_cases hnil : start = []
      · rw [hnil]
        exact hfirst
      · exact hrest start hnil hpre'

namespace Layout

variable (L : Layout) (offset : Int) (bits : Nat)

/-- **The range lies in the part and in those around it**, the whole left out. -/
def Holds (path : List Nat) : Prop :=
  ∀ start, start ≠ [] → start <+: path → ∃ p, L start = some p ∧ p.Covers offset bits

/-- **No second way leads to the range.** -/
structure Straight : Prop where
  /-- One member of a product at most holds it. -/
  one : ∀ path p i j q r, L path = some p → p.kind = .product → i < j →
    L (path ++ [i]) = some q → L (path ++ [j]) = some r → q.Covers offset bits →
      ¬ r.Covers offset bits
  /-- An alternative that has members and holds it starts where the union does, unless it is the
      last one. -/
  still : ∀ path p i j q r, L path = some p → p.kind = .union → i < j →
    L (path ++ [i]) = some q → L (path ++ [j]) = some r → q.Covers offset bits →
      q.kind = .leaf ∨ q.pos = p.pos

/-- **The parts lie in one another**, the members of a product side by side. -/
structure Nested : Prop where
  parent : ∀ path i q, L (path ++ [i]) = some q → ∃ p, L path = some p
  inside : ∀ path i p q, L path = some p → L (path ++ [i]) = some q →
    p.pos ≤ q.pos ∧ q.pos + q.bits ≤ p.pos + p.bits
  apart : ∀ path i j p q r, L path = some p → p.kind = .product → i < j →
    L (path ++ [i]) = some q → L (path ++ [j]) = some r →
      q.pos + q.bits ≤ r.pos ∨ r.pos + r.bits ≤ q.pos

/-- All alternatives start where the union does, as in C. -/
def UnionsStart : Prop :=
  ∀ path i p q, L path = some p → p.kind = .union → L (path ++ [i]) = some q → q.pos = p.pos

variable {L offset bits} {path : List Nat} {p : Place}

theorem holds_nil : L.Holds offset bits [] := by
  intro start hne hpre
  exact absurd (List.prefix_nil.mp hpre) hne

theorem Holds.covers (h : L.Holds offset bits path) (hne : path ≠ []) (hp : L path = some p) :
    p.Covers offset bits := by
  obtain ⟨q, hq, hcov⟩ := h path hne List.prefix_rfl
  cases hp.symm.trans hq
  exact hcov

/-- In what is nested, the parts around a part hold what it holds. -/
theorem Nested.around (hn : L.Nested) (rest : List Nat) (hp : L (path ++ rest) = some p)
    (hcov : p.Covers offset bits) : ∃ q, L path = some q ∧ q.Covers offset bits := by
  induction rest using List.reverseRecOn generalizing p with
  | nil =>
    rw [List.append_nil] at hp
    exact ⟨p, hp, hcov⟩
  | append_singleton rest i ih =>
    rw [← List.append_assoc] at hp
    obtain ⟨q, hq⟩ := hn.parent _ i p hp
    obtain ⟨hlow, hhigh⟩ := hn.inside _ i q p hq hp
    obtain ⟨hstart, hend⟩ := hcov
    exact ih hq ⟨by omega, by omega⟩

/-- **There a range lies in all parts around where it lies in a part.** -/
theorem Nested.holds_iff (hn : L.Nested) (hne : path ≠ []) (hp : L path = some p) :
    L.Holds offset bits path ↔ p.Covers offset bits := by
  constructor
  · intro h
    exact h.covers hne hp
  · rintro hcov start - ⟨rest, rfl⟩
    exact hn.around rest hp hcov

/-- **And one way leads to a range that is not empty**, where the alternatives start as their union
    does. -/
theorem Nested.straight (hn : L.Nested) (hu : L.UnionsStart) (hbits : 0 < bits) :
    L.Straight offset bits := by
  refine ⟨?_, ?_⟩
  · rintro path p i j q r hp hkind hlt hq hr ⟨hq₁, hq₂⟩ ⟨hr₁, hr₂⟩
    have hapart := hn.apart path i j p q r hp hkind hlt hq hr
    omega
  · intro path p i j q r hp hkind _ hq _ _
    exact Or.inr (hu path i p q hp hkind hq)

end Layout

end Srcinv.Lib
