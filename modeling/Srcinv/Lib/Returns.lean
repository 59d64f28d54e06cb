import Mathlib.Logic.Basic
import Mathlib.Tactic.TypeStar

/-!
# What a program returns with

A program changes a state and returns, or stops.  `Ensures s m post` says that every return of `m`
from `s` is one that `post` allows.

* `Ensures.bind` — one program after the other.
* `KeepsView` — a program returns in a state that looks the same as the one it was started in.
* `KeepsView.bind` — **programs that keep a view keep it one after the other.**
-/

namespace Srcinv.Lib

universe u

variable {σ α β : Type u} {ν : Type*}

/-- A program over states `σ`; `none` when it stops. -/
abbrev Prog (σ α : Type u) := StateT σ Option α

/-- Whenever `m` returns from `s`, what it returns and leaves meets `post`. -/
def Ensures (s : σ) (m : Prog σ α) (post : α → σ → Prop) : Prop :=
  ∀ a s', m s = some (a, s') → post a s'

variable {s : σ} {m : Prog σ α} {f : α → Prog σ β} {post : α → σ → Prop} {post' : β → σ → Prop}

/-- The two halves of a program that returns. -/
theorem bind_returns {b : β} {s' : σ} (h : (m >>= f) s = some (b, s')) :
    ∃ a t, m s = some (a, t) ∧ f a t = some (b, s') := by
  change (m s).bind (fun r => f r.1 r.2) = some (b, s') at h
  cases hm : m s with
  | none => simp [hm] at h
  | some r => exact ⟨r.1, r.2, rfl, by simpa [hm] using h⟩

theorem Ensures.pure {a : α} (h : post a s) : Ensures s (Pure.pure a) post := by
  intro a' s' hret
  cases hret
  exact h

theorem Ensures.stop : Ensures s (failure : Prog σ α) post := fun _ _ hret => (by cases hret)

/-- A value that is computed, or a stop. -/
theorem Ensures.lift (o : Option α) :
    Ensures s (liftM o : Prog σ α) fun a t => o = some a ∧ t = s := by
  intro a t hret
  cases o with
  | none => cases hret
  | some b =>
    cases hret
    exact ⟨rfl, rfl⟩

theorem Ensures.bind (hm : Ensures s m post) (hf : ∀ a t, post a t → Ensures t (f a) post') :
    Ensures s (m >>= f) post' := by
  intro b s' hret
  obtain ⟨a, t, hmt, hft⟩ := bind_returns hret
  exact hf a t (hm a t hmt) b s' hft

theorem Ensures.imp {post₁ : α → σ → Prop} (hm : Ensures s m post)
    (h : ∀ a t, post a t → post₁ a t) : Ensures s m post₁ :=
  fun a s' hret => h a s' (hm a s' hret)

/-! ## Views -/

section KeepsView

variable {view : σ → ν}

/-- `m` leaves what is seen of the state as it was. -/
def KeepsView (view : σ → ν) (m : Prog σ α) : Prop :=
  ∀ s, Ensures s m fun _ s' => view s' = view s

theorem KeepsView.pure (a : α) : KeepsView view (Pure.pure a : Prog σ α) :=
  fun _ => Ensures.pure rfl

theorem KeepsView.bind (hm : KeepsView view m) (hf : ∀ a, KeepsView view (f a)) :
    KeepsView view (m >>= f) :=
  fun s => (hm s).bind fun a t hview => (hf a t).imp fun _ _ h => h.trans hview

theorem KeepsView.lift (o : Option α) : KeepsView view (liftM o : Prog σ α) := fun _ =>
  (Ensures.lift o).imp fun _ _ h => congrArg view h.2

/-- After a program that keeps the view. -/
theorem Ensures.after (hm : KeepsView view m)
    (hf : ∀ a t, view t = view s → Ensures t (f a) post') :
    Ensures s (m >>= f) post' := (hm s).bind hf

/-- A program with a view to keep. -/
structure Keeper (view : σ → ν) (α : Type u) where
  run : Prog σ α
  keeps : KeepsView view run

end KeepsView

end Srcinv.Lib
