import Mathlib.Data.Finset.Card

/-!
# Recursion over a graph that may have cycles

A function that calls itself on the successors of its argument comes back exactly where no path
goes on for ever.  Run with a bound on the depth, it comes back on a finite set of successors
exactly when the size of the set is bound enough.

* `Grounded` — every path from here ends, and each node on it is one that the function accepts.
* `GroundedIn` — the same within a depth.
* `grounded_iff_in` — over a finite set of successors its size plus one is depth enough.
-/

namespace Srcinv.Lib

variable {α : Type*} (ok : α → Prop) (succ : α → α → Prop)

/-- The recursion from `a` ends well. -/
inductive Grounded : α → Prop
  | intro {a : α} (hok : ok a) (h : ∀ b, succ a b → Grounded b) : Grounded a

/-- The recursion from `a` ends well within a depth. -/
def GroundedIn : Nat → α → Prop
  | 0, _ => False
  | k + 1, a => ok a ∧ ∀ b, succ a b → GroundedIn k b

variable {ok succ}

theorem GroundedIn.step {k : Nat} {a : α} (h : GroundedIn ok succ k a) :
    GroundedIn ok succ (k + 1) a := by
  induction k generalizing a with
  | zero => exact h.elim
  | succ k ih => exact ⟨h.1, fun b hb => ih (h.2 b hb)⟩

theorem GroundedIn.mono {k l : Nat} {a : α} (h : GroundedIn ok succ k a) (hl : k ≤ l) :
    GroundedIn ok succ l a := by
  induction hl with
  | refl => exact h
  | step _ ih => exact ih.step

theorem GroundedIn.grounded {k : Nat} {a : α} (h : GroundedIn ok succ k a) :
    Grounded ok succ a := by
  induction k generalizing a with
  | zero => exact h.elim
  | succ k ih => exact .intro h.1 fun b hb => ih (h.2 b hb)

/-- Once a depth more grounds nothing new in the set, no depth does. -/
theorem groundedIn_stable {U : Finset α} (hU : ∀ a b, succ a b → b ∈ U) {k : Nat}
    (hk : ∀ a ∈ U, GroundedIn ok succ (k + 1) a → GroundedIn ok succ k a) {a : α} (ha : a ∈ U)
    (h : Grounded ok succ a) : GroundedIn ok succ k a := by
  induction h with
  | @intro a hok hsucc ih => exact hk a ha ⟨hok, fun b hb => ih b hb (hU a b hb)⟩

open Classical in
/-- As long as each depth grounds something new, there are that many grounded elements. -/
theorem card_groundedIn (U : Finset α) {k : Nat}
    (hnew : ∀ j < k, ¬ ∀ a ∈ U, GroundedIn ok succ (j + 1) a → GroundedIn ok succ j a) :
    k ≤ (U.filter fun a => GroundedIn ok succ k a).card := by
  induction k with
  | zero => exact Nat.zero_le _
  | succ k ih =>
    have hle := ih fun j hj => hnew j (Nat.lt_succ_of_lt hj)
    have hk := hnew k (Nat.lt_succ_self k)
    simp only [not_forall] at hk
    obtain ⟨a, ha, hin, hnot⟩ := hk
    refine Nat.succ_le_of_lt (Nat.lt_of_le_of_lt hle (Finset.card_lt_card ?_))
    rw [Finset.ssubset_iff_of_subset fun b hb => ?_]
    · exact ⟨a, Finset.mem_filter.mpr ⟨ha, hin⟩, fun h => hnot (Finset.mem_filter.mp h).2⟩
    · obtain ⟨hb, hbk⟩ := Finset.mem_filter.mp hb
      exact Finset.mem_filter.mpr ⟨hb, hbk.step⟩

/-- **The size of the set is depth enough.** -/
theorem grounded_iff_in {U : Finset α} (hU : ∀ a b, succ a b → b ∈ U) (a : α) :
    Grounded ok succ a ↔ GroundedIn ok succ (U.card + 1) a := by
  classical
  refine ⟨fun h => ?_, GroundedIn.grounded⟩
  have hstop : ∃ j ≤ U.card, ∀ a ∈ U, GroundedIn ok succ (j + 1) a → GroundedIn ok succ j a := by
    by_contra hno
    simp only [not_exists, not_and] at hno
    have hcard : U.card + 1 ≤ _ :=
      card_groundedIn U fun j hj => hno j (Nat.le_of_lt_succ hj)
    exact absurd (hcard.trans (Finset.card_filter_le U _)) (Nat.not_succ_le_self _)
  obtain ⟨j, hj, hstable⟩ := hstop
  cases h with
  | intro hok hsucc =>
    exact ⟨hok, fun b hb => (groundedIn_stable hU hstable (hU a b hb) (hsucc b hb)).mono hj⟩

end Srcinv.Lib
