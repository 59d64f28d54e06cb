import Mathlib.Data.List.Chain
import Mathlib.Data.List.Nodup
import Mathlib.Logic.Relation

/-!
# A depth first walk that keeps its path

The walk goes from a node to its successors, and back from a node that is on the path to it.  It
has no other memory: a node is visited once for each path without repetition that leads to it.
The path may not become too long.

* `meets_iff` — the walk visits what can be reached.
* `walks_iff` — it comes back exactly when each node that can be reached lets it through and no
  path without repetition is too long.
-/

namespace Srcinv.Lib

variable {α : Type*} {succ : α → α → Prop} {ok : α → Prop} {depth : Nat}

/-- The walk from a node with a path to it comes back, having passed each node it visits. -/
inductive Walks (succ : α → α → Prop) (ok : α → Prop) (depth : Nat) : List α → α → Prop
  | seen {path : List α} {a : α} (hroom : path.length < depth) (h : a ∈ path) :
    Walks succ ok depth path a
  | new {path : List α} {a : α} (hroom : path.length < depth) (h : a ∉ path) (ha : ok a)
    (hsucc : ∀ b, succ a b → Walks succ ok depth (path ++ [a]) b) : Walks succ ok depth path a

/-- The walk from a node with a path to it visits a node. -/
inductive Meets (succ : α → α → Prop) : List α → α → α → Prop
  | here {path : List α} {a : α} (h : a ∉ path) : Meets succ path a a
  | next {path : List α} {a b c : α} (h : a ∉ path) (hab : succ a b)
    (hbc : Meets succ (path ++ [a]) b c) : Meets succ path a c

/-! ## What is visited -/

/-- A path with fewer nodes stops the walk nowhere else. -/
theorem Meets.mono {path path' : List α} {a c : α} (h : Meets succ path' a c)
    (hsub : ∀ x ∈ path, x ∈ path') : Meets succ path a c := by
  induction h generalizing path with
  | here ha => exact .here fun h => ha (hsub _ h)
  | @next path' a b c ha hab _ ih =>
    refine .next (fun h => ha (hsub a h)) hab (ih fun x hx => ?_)
    obtain hx | hx := List.mem_append.mp hx
    · exact List.mem_append_left _ (hsub x hx)
    · exact List.mem_append_right _ hx

/-- A visit goes through the node `a` or does not meet it. -/
theorem Meets.through {path : List α} {b c : α} (h : Meets succ path b c) (a : α) :
    Meets succ (path ++ [a]) b c ∨ Meets succ path a c := by
  have hoff : ∀ {path : List α} {b : α}, b ∉ path → b ≠ a → b ∉ path ++ [a] := by
    intro path b hb hne hmem
    obtain hmem | hmem := List.mem_append.mp hmem
    · exact hb hmem
    · exact hne (List.mem_singleton.mp hmem)
  induction h with
  | @here path b hb =>
    by_cases hba : b = a
    · exact Or.inr (hba ▸ .here hb)
    · exact Or.inl (.here (hoff hb hba))
  | @next path b d c hb hbd hdc ih =>
    by_cases hba : b = a
    · exact Or.inr (hba ▸ .next hb hbd hdc)
    · obtain hd | ha := ih
      · refine Or.inl (.next (hoff hb hba) hbd (hd.mono fun x hx => ?_))
        simp only [List.mem_append, List.mem_singleton] at hx ⊢
        exact hx.elim (fun hx => hx.elim (fun h => Or.inl (Or.inl h)) Or.inr)
          fun h => Or.inl (Or.inr h)
      · exact Or.inr (ha.mono fun x hx => List.mem_append_left _ hx)

theorem Meets.reach {path : List α} {a c : α} (h : Meets succ path a c) :
    Relation.ReflTransGen succ a c := by
  induction h with
  | here => exact .refl
  | next _ hab _ ih => exact .head hab ih

/-- **The walk visits what can be reached**, cycles or not. -/
theorem meets_iff {a c : α} : Meets succ [] a c ↔ Relation.ReflTransGen succ a c := by
  constructor
  · exact Meets.reach
  · intro h
    induction h using Relation.ReflTransGen.head_induction_on with
    | refl => exact .here List.not_mem_nil
    | @head a b hab _ ih =>
      obtain hb | ha := ih.through a
      · exact .next List.not_mem_nil hab hb
      · exact ha

/-! ## When it comes back -/

theorem Walks.room {path : List α} {a : α} (h : Walks succ ok depth path a) :
    path.length < depth := by
  cases h with
  | seen hroom => exact hroom
  | new hroom => exact hroom

/-- The walk passes what it visits. -/
theorem Walks.ok_of_meets {path : List α} {a c : α} (h : Walks succ ok depth path a)
    (hm : Meets succ path a c) : ok c := by
  induction hm with
  | here hno =>
    cases h with
    | seen _ hmem => exact absurd hmem hno
    | new _ _ ha => exact ha
  | next hno hab _ ih =>
    cases h with
    | seen _ hmem => exact absurd hmem hno
    | new _ _ _ hsucc => exact ih (hsucc _ hab)

/-- The walk follows each path without repetition, and has room for its nodes. -/
theorem Walks.follow {path' path : List α} {a x : α} (h : Walks succ ok depth path a)
    (hnodup : (path ++ a :: path').Nodup) (hchain : List.IsChain succ (a :: path' ++ [x])) :
    (path ++ a :: path').length < depth := by
  induction path' generalizing path a with
  | nil =>
    have hno : a ∉ path := fun hmem =>
      (List.nodup_append.mp hnodup).2.2 a hmem a List.mem_cons_self rfl
    cases h with
    | seen _ hmem => exact absurd hmem hno
    | new _ _ _ hsucc => exact (hsucc x (List.isChain_pair.mp hchain)).room
  | cons b path' ih =>
    have hno : a ∉ path := fun hmem =>
      (List.nodup_append.mp hnodup).2.2 a hmem a List.mem_cons_self rfl
    rw [List.append_cons] at hnodup ⊢
    cases h with
    | seen _ hmem => exact absurd hmem hno
    | new _ _ _ hsucc =>
      obtain ⟨hab, hchain⟩ := List.isChain_cons_cons.mp hchain
      exact ih (hsucc b hab) hnodup hchain

/-- A path without repetition that fills the room, and one more step. -/
def TooDeep (succ : α → α → Prop) (depth : Nat) (a : α) : Prop :=
  ∃ path x, path.length = depth ∧ path.Nodup ∧ List.IsChain succ (a :: path ++ [x])

theorem transGen_of_chain {path : List α} {a x : α}
    (h : List.IsChain succ (a :: path ++ [x])) : Relation.TransGen succ a x := by
  induction path generalizing a with
  | nil => exact .single (List.isChain_pair.mp h)
  | cons b path ih =>
    obtain ⟨hab, h⟩ := List.isChain_cons_cons.mp h
    exact .head hab (ih h)

/-- The walk from the end of a chain comes back. -/
theorem walks_of_chain {root : α} (hok : ∀ a, Relation.TransGen succ root a → ok a)
    (hdeep : ¬ TooDeep succ depth root) {k : Nat} {path : List α} {a : α}
    (hk : path.length + k = depth) (hnodup : path.Nodup)
    (hchain : List.IsChain succ (root :: path ++ [a])) : Walks succ ok depth path a := by
  induction k generalizing path a with
  | zero => exact absurd ⟨path, a, by omega, hnodup, hchain⟩ hdeep
  | succ k ih =>
    by_cases hmem : a ∈ path
    · exact .seen (by omega) hmem
    · refine .new (by omega) hmem (hok a ?_) fun b hab => ?_
      · exact transGen_of_chain hchain
      · refine ih (by rw [List.length_append, List.length_singleton]; omega) ?_ ?_
        · rw [← List.concat_eq_append, List.nodup_concat]
          exact ⟨hmem, hnodup⟩
        · rw [← List.cons_append, List.append_assoc]
          exact List.isChain_append_cons_cons.mpr ⟨hchain, hab, List.isChain_singleton b⟩

/-- **When the walk from all successors of a node comes back.** -/
theorem walks_iff {root : α} (hd : 0 < depth) :
    (∀ a, succ root a → Walks succ ok depth [] a) ↔
      (∀ a, Relation.TransGen succ root a → ok a) ∧ ¬ TooDeep succ depth root := by
  constructor
  · intro h
    refine ⟨fun a ha => ?_, ?_⟩
    · obtain ⟨b, hb, hba⟩ := Relation.TransGen.head'_iff.mp ha
      exact (h b hb).ok_of_meets (meets_iff.mpr hba)
    · rintro ⟨path, x, hlen, hnodup, hchain⟩
      cases path with
      | nil =>
        rw [List.length_nil] at hlen
        omega
      | cons a path =>
        obtain ⟨ha, hchain⟩ := List.isChain_cons_cons.mp hchain
        have hlt : (a :: path).length < depth :=
          (h a ha).follow (show ([] ++ a :: path).Nodup from hnodup) hchain
        omega
  · rintro ⟨hok, hdeep⟩ a ha
    exact walks_of_chain hok hdeep (Nat.zero_add _) List.nodup_nil (List.isChain_pair.mpr ha)

end Srcinv.Lib
