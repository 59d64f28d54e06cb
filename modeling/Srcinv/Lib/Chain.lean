import Mathlib.Logic.Relation
import Mathlib.Logic.Function.Basic
import Mathlib.Data.Finset.Card

/-!
# Following pointers

A partial function `next` sends each node to the node it points at.

* `Leads` — following the pointers from one node reaches another.
* `Ends` — following the pointers from a node comes to an end.
* `acc_iff_no_cycle`, `ends_iff` — among finitely many nodes, following a relation, or the pointers,
  comes to an end where it runs into no cycle.
* `ends_update` — a new pointer keeps all chains ending if its target does not lead back.
* `cycle_update` — it closes a cycle if the target does.
-/

namespace Srcinv.Lib

variable {α : Type*}

/-- One step along a pointer. -/
def PointsAt (next : α → Option α) (a b : α) : Prop := next a = some b

/-- Following the pointers from `a` reaches `b`. -/
def Leads (next : α → Option α) : α → α → Prop := Relation.ReflTransGen (PointsAt next)

/-- Following the pointers from `a` comes to an end. -/
def Ends (next : α → Option α) (a : α) : Prop := Acc (fun b a => PointsAt next a b) a

/-- Following the pointers from `a` comes back to `a`. -/
def Revisits (next : α → Option α) (a : α) : Prop := Relation.TransGen (PointsAt next) a a

variable {next next' : α → Option α}

theorem Ends.of_none {a : α} (h : next a = none) : Ends next a :=
  .intro _ fun b hb => by rw [PointsAt, h] at hb; cases hb

/-- A chain that ends does not come back. -/
theorem not_revisits_of_ends {a : α} (h : Ends next a) : ¬ Revisits next a := by
  induction h with
  | intro a _ ih =>
    intro hcycle
    obtain ⟨b, hab, hba⟩ := Relation.TransGen.head'_iff.mp hcycle
    exact ih b hab (Relation.TransGen.tail' hba hab)

theorem ends_step {a b : α} (h : PointsAt next a b) : Ends next a ↔ Ends next b := by
  constructor
  · exact fun ha => ha.inv h
  · intro hb
    refine .intro _ fun c hc => ?_
    rw [PointsAt, h, Option.some.injEq] at hc
    exact hc ▸ hb

/-- A chain that ends runs into no cycle. -/
theorem not_revisits_of_leads {a b : α} (h : Ends next a) (hab : Leads next a b) :
    ¬ Revisits next b := by
  induction hab using Relation.ReflTransGen.head_induction_on with
  | refl => exact not_revisits_of_ends h
  | @head a c hstep _ ih => exact ih ((ends_step hstep).mp h)

/-- Where following any relation comes to an end, it runs into no cycle. -/
theorem no_cycle_of_acc {r : α → α → Prop} {a : α} (h : Acc (fun b a => r a b) a) :
    ¬ ∃ b, Relation.ReflTransGen r a b ∧ Relation.TransGen r b b := by
  induction h with
  | intro a _ ih =>
    rintro ⟨b, hab, hb⟩
    rcases Relation.ReflTransGen.cases_head hab with rfl | ⟨c, hac, hcb⟩
    · obtain ⟨c, hac, hca⟩ := Relation.TransGen.head'_iff.mp hb
      exact ih c hac ⟨a, hca, hb⟩
    · exact ih c hac ⟨b, hcb, hb⟩

/-- **Following a relation comes to an end exactly where it runs into no cycle**, when finitely many
    of the nodes that it leads to have a successor. -/
theorem acc_iff_no_cycle {r : α → α → Prop} {nodes : Finset α} {a : α}
    (hnodes : ∀ b c, Relation.ReflTransGen r a b → r b c → b ∈ nodes) :
    Acc (fun b a => r a b) a ↔
      ¬ ∃ b, Relation.ReflTransGen r a b ∧ Relation.TransGen r b b := by
  classical
  refine ⟨no_cycle_of_acc, fun hno => ?_⟩
  -- The nodes that are still to come get fewer with each step.
  generalize hn : (nodes.filter fun c => Relation.TransGen r a c).card = n
  induction n using Nat.strong_induction_on generalizing a with
  | h n ih =>
    refine .intro _ fun b hab => ?_
    have hnodes' : ∀ c d, Relation.ReflTransGen r b c → r c d → c ∈ nodes := fun c d hbc =>
      hnodes c d (.head hab hbc)
    have hno' : ¬ ∃ c, Relation.ReflTransGen r b c ∧ Relation.TransGen r c c := by
      rintro ⟨c, hbc, hc⟩
      exact hno ⟨c, .head hab hbc, hc⟩
    by_cases hb : b ∈ nodes
    · refine ih _ ?_ hnodes' hno' rfl
      rw [← hn]
      refine Finset.card_lt_card ⟨fun c hc => ?_, fun hsub => ?_⟩
      · rw [Finset.mem_filter] at hc ⊢
        exact ⟨hc.1, .head hab hc.2⟩
      · have hin := hsub (Finset.mem_filter.mpr ⟨hb, .single hab⟩)
        exact hno' ⟨b, .refl, (Finset.mem_filter.mp hin).2⟩
    · exact .intro _ fun c hbc => absurd (hnodes' b c .refl hbc) hb

/-- **Among finitely many nodes with a pointer, a chain ends exactly where it runs into no
    cycle.** -/
theorem ends_iff {nodes : Finset α} (hnodes : ∀ a b, PointsAt next a b → a ∈ nodes) {a : α} :
    Ends next a ↔ ¬ ∃ b, Leads next a b ∧ Revisits next b :=
  acc_iff_no_cycle fun b c _ h => hnodes b c h

/-- Taking pointers away keeps all chains ending. -/
theorem ends_of_le (hle : ∀ a, next' a = none ∨ next' a = next a) (h : ∀ a, Ends next a) (a : α) :
    Ends next' a := by
  induction h a with
  | intro a _ ih =>
    refine .intro _ fun b hb => ih b ?_
    obtain hnone | hsame := hle a
    · rw [PointsAt, hnone] at hb
      cases hb
    · exact hsame.symm.trans hb

variable [DecidableEq α]

/-- A new pointer whose target does not lead back keeps all chains ending. -/
theorem ends_update {b c : α} (h : ∀ a, Ends next a) (hno : ¬ Leads next c b) (a : α) :
    Ends (Function.update next b (some c)) a := by
  have haway : ∀ a, ¬ Leads next a b → Ends (Function.update next b (some c)) a := by
    intro a
    induction h a with
    | intro a _ ih =>
      intro hab
      have hne : a ≠ b := fun heq => hab (heq ▸ Relation.ReflTransGen.refl)
      refine .intro _ fun a' hstep => ?_
      rw [PointsAt, Function.update_of_ne hne] at hstep
      exact ih a' hstep fun hlead => hab (Relation.ReflTransGen.head hstep hlead)
  have hb : Ends (Function.update next b (some c)) b := by
    refine .intro _ fun c' hstep => ?_
    rw [PointsAt, Function.update_self, Option.some.injEq] at hstep
    exact hstep ▸ haway c hno
  induction h a with
  | intro a _ ih =>
    by_cases hab : a = b
    · exact hab ▸ hb
    · refine .intro _ fun a' hstep => ?_
      rw [PointsAt, Function.update_of_ne hab] at hstep
      exact ih a' hstep

/-- A new pointer whose target leads back closes a cycle. -/
theorem cycle_update {b c : α} (h : Leads next c b) :
    Revisits (Function.update next b (some c)) b := by
  have hback : ∀ a, Leads next a b → Leads (Function.update next b (some c)) a b := by
    intro a hab
    induction hab using Relation.ReflTransGen.head_induction_on with
    | refl => exact .refl
    | @head a a' hstep _ ih =>
      by_cases heq : a = b
      · exact heq ▸ .refl
      · have hkept : PointsAt (Function.update next b (some c)) a a' := by
          rw [PointsAt, Function.update_of_ne heq]
          exact hstep
        exact .head hkept ih
  exact .head' (Function.update_self ..) (hback c h)

end Srcinv.Lib
