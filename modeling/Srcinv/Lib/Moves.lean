import Mathlib.Data.Set.Defs
import Mathlib.Data.List.Basic
import Mathlib.Tactic.TypeStar

/-!
# Moves made one after the other

A move copies what is at one place to some others.  After several of them a place has what was at
its origin before the first.

* `Carries` — what each place has now comes from its origin.
* `Carries.append` — **one list of moves after another.**
-/

namespace Srcinv.Lib

variable {ι α : Type*}

/-- What is at `src` goes to all places of `dsts`. -/
structure Move (ι : Type*) where
  dsts : List ι
  src : ι

variable [DecidableEq ι]

/-- The place that what is at `x` after the move comes from. -/
def Move.from (mv : Move ι) (x : ι) : ι := if x ∈ mv.dsts then mv.src else x

/-- The place that what is at `x` after all moves was at before the first. -/
def origin (ms : List (Move ι)) (x : ι) : ι := ms.foldr Move.from x

/-- What the places of `P` have in `t` is related to what their origins have in `s`. -/
def Carries (R : α → α → Prop) (P : Set ι) (ms : List (Move ι)) (s t : ι → α) : Prop :=
  ∀ x ∈ P, R (t x) (s (origin ms x))

variable {R : α → α → Prop} {P : Set ι} {mv : Move ι} {ms ms' : List (Move ι)} {s t u : ι → α}
  {x : ι}

theorem Move.from_of_mem (hx : x ∈ mv.dsts) : mv.from x = mv.src := if_pos hx

theorem Move.from_of_notMem (hx : x ∉ mv.dsts) : mv.from x = x := if_neg hx

theorem origin_cons (mv : Move ι) (ms : List (Move ι)) (x : ι) :
    origin (mv :: ms) x = mv.from (origin ms x) := rfl

theorem origin_append (ms ms' : List (Move ι)) (x : ι) :
    origin (ms ++ ms') x = origin ms (origin ms' x) := List.foldr_append

/-- Moves between places of `P` leave origins there. -/
theorem origin_mem (hsrc : ∀ mv ∈ ms, mv.src ∈ P) (hx : x ∈ P) : origin ms x ∈ P := by
  induction ms with
  | nil => exact hx
  | cons mv ms ih =>
    rw [origin_cons]
    by_cases hmem : origin ms x ∈ mv.dsts
    · rw [mv.from_of_mem hmem]
      exact hsrc mv List.mem_cons_self
    · rw [mv.from_of_notMem hmem]
      exact ih fun mv' hmv' => hsrc mv' (List.mem_cons_of_mem mv hmv')

theorem Carries.nil (hR : ∀ a, R a a) (s : ι → α) : Carries R P [] s s := fun x _ => hR (s x)

theorem Carries.append (hR : ∀ a b c, R a b → R b c → R a c) (hsrc : ∀ mv ∈ ms', mv.src ∈ P)
    (h : Carries R P ms s t) (h' : Carries R P ms' t u) : Carries R P (ms ++ ms') s u := by
  intro x hx
  rw [origin_append]
  exact hR _ _ _ (h' x hx) (h _ (origin_mem hsrc hx))

end Srcinv.Lib
