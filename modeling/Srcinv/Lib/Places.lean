import Mathlib.Data.List.Basic

/-!
# Lists by their places

* `getElem?_snoc`, `getElem?_snoc_both` — the places of lists that are one longer.
* `filterMap_range` — a list is read back from its places.
-/

namespace Srcinv.Lib

variable {α β : Type*} {l : List α} {l' : List β} {x u : α} {y v : β} {i : Nat}

/-- The places of a list that is one longer. -/
theorem getElem?_snoc : (l ++ [x])[i]? = some u ↔ l[i]? = some u ∨ i = l.length ∧ x = u := by
  obtain hlt | rfl | hgt := Nat.lt_trichotomy i l.length
  · rw [List.getElem?_append_left hlt]
    exact (or_iff_left fun h => Nat.ne_of_lt hlt h.1).symm
  · simp
  · rw [List.getElem?_eq_none (by simp; omega), List.getElem?_eq_none (by omega)]
    simp
    omega

/-- The same place of two lists that are one longer. -/
theorem getElem?_snoc_both (hlen : l'.length = l.length) (hu : (l ++ [x])[i]? = some u)
    (hv : (l' ++ [y])[i]? = some v) : (l[i]? = some u ∧ l'[i]? = some v) ∨ (x = u ∧ y = v) := by
  obtain hu | ⟨hiu, rfl⟩ := getElem?_snoc.mp hu <;> obtain hv | ⟨hiv, rfl⟩ := getElem?_snoc.mp hv
  · exact Or.inl ⟨hu, hv⟩
  · have hlt := (List.getElem?_eq_some_iff.mp hu).1
    omega
  · have hlt := (List.getElem?_eq_some_iff.mp hv).1
    omega
  · exact Or.inr ⟨rfl, rfl⟩

/-- What is at the places of a list, in their order. -/
theorem filterMap_range (l : List α) : (List.range l.length).filterMap (fun i => l[i]?) = l := by
  induction l with
  | nil => rfl
  | cons x l ih =>
    rw [List.length_cons, List.range_succ_eq_map, List.filterMap_cons, List.filterMap_map]
    exact congrArg (x :: ·) ih

end Srcinv.Lib
