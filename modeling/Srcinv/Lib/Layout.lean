import Mathlib.Algebra.Order.Ring.Int
import Mathlib.Algebra.BigOperators.Group.List.Basic
import Mathlib.Algebra.Order.BigOperators.Group.List
import Mathlib.Data.List.Basic
import Mathlib.Tactic.TypeStar

/-!
# Extents laid out one after the other

* `startOf` — where extent `i` starts when extents of given sizes follow each other.
* `blit`, `readRange` — writing a list into a memory (a function of the address) and reading a
  range back.
* `readRange_of_flatten` — a region that holds the concatenation of some lists holds list `i` at
  `startOf i`.
* `find?_of_apart` — among pairwise disjoint ranges a first-match search by address finds the
  range that contains the address.
-/

namespace Srcinv.Lib

/-! ## Prefix sums -/

/-- The start of extent `i`: the sum of the sizes before it. -/
def startOf (sizes : List Nat) (i : Nat) : Nat := (sizes.take i).sum

variable {sizes : List Nat} {i j : Nat}

@[simp] theorem startOf_zero (sizes : List Nat) : startOf sizes 0 = 0 := rfl

theorem startOf_succ (h : i < sizes.length) :
    startOf sizes (i + 1) = startOf sizes i + sizes[i] := by
  simp only [startOf, List.take_add_one, List.getElem?_eq_getElem h, Option.toList_some,
    List.sum_append, List.sum_singleton]

theorem startOf_cons_succ (n : Nat) (sizes : List Nat) (i : Nat) :
    startOf (n :: sizes) (i + 1) = n + startOf sizes i := by
  simp [startOf]

theorem startOf_le_sum (sizes : List Nat) (i : Nat) : startOf sizes i ≤ sizes.sum := by
  have h := congrArg List.sum (List.take_append_drop i sizes)
  rw [List.sum_append] at h
  unfold startOf
  omega

theorem startOf_mono (sizes : List Nat) (h : i ≤ j) : startOf sizes i ≤ startOf sizes j := by
  have hi : startOf sizes i = startOf (sizes.take j) i := by
    simp [startOf, List.take_take, Nat.min_eq_left h]
  rw [hi]
  exact startOf_le_sum (sizes.take j) i

/-- A later extent starts past the end of an earlier one. -/
theorem startOf_add_le (hi : i < sizes.length) (hij : i < j) :
    startOf sizes i + sizes[i] ≤ startOf sizes j := by
  rw [← startOf_succ hi]
  exact startOf_mono sizes hij

theorem startOf_add_le_sum (hi : i < sizes.length) :
    startOf sizes i + sizes[i] ≤ sizes.sum := by
  rw [← startOf_succ hi]
  exact startOf_le_sum sizes (i + 1)

/-! ## Memory -/

variable {α : Type*}

/-- `memcpy`: write `src` at `dst`. -/
def blit (mem : Nat → α) (dst : Nat) (src : List α) : Nat → α := fun k =>
  if k < dst then mem k else (src[k - dst]?).getD (mem k)

/-- The `len` cells from `off` on. -/
def readRange (mem : Nat → α) (off len : Nat) : List α :=
  (List.range len).map fun k => mem (off + k)

@[simp] theorem readRange_length (mem : Nat → α) (off len : Nat) :
    (readRange mem off len).length = len := by
  simp [readRange]

theorem readRange_add (mem : Nat → α) (off m n : Nat) :
    readRange mem off (m + n) = readRange mem off m ++ readRange mem (off + m) n := by
  simp [readRange, List.range_add, List.map_map, Function.comp_def, Nat.add_assoc]

theorem readRange_congr {mem mem' : Nat → α} {off len : Nat}
    (h : ∀ k, off ≤ k → k < off + len → mem k = mem' k) :
    readRange mem off len = readRange mem' off len := by
  unfold readRange
  refine List.map_congr_left fun k hk => h (off + k) (Nat.le_add_right off k) ?_
  have := List.mem_range.mp hk
  omega

theorem blit_of_lt {mem : Nat → α} {dst k : Nat} (src : List α) (h : k < dst) :
    blit mem dst src k = mem k := by
  simp [blit, h]

theorem readRange_blit (mem : Nat → α) (dst : Nat) (src : List α) :
    readRange (blit mem dst src) dst src.length = src := by
  refine List.ext_getElem (readRange_length _ _ _) fun k hk hk' => ?_
  simp [readRange, blit, List.getElem?_eq_getElem hk']

/-- A write leaves everything before it alone. -/
theorem readRange_blit_before {mem : Nat → α} {dst off len : Nat} (src : List α)
    (h : off + len ≤ dst) : readRange (blit mem dst src) off len = readRange mem off len :=
  readRange_congr fun k _ hk => blit_of_lt src (by omega)

/-- Appending at the end of a region appends to what the region holds. -/
theorem readRange_blit_end {mem : Nat → α} {off : Nat} {held : List α}
    (h : readRange mem off held.length = held) (src : List α) :
    readRange (blit mem (off + held.length) src) off (held ++ src).length = held ++ src := by
  rw [List.length_append, readRange_add, readRange_blit_before src (Nat.le_refl _), h,
    readRange_blit]

/-- The parts of a concatenation stand at the prefix sums of their lengths. -/
theorem readRange_of_flatten {mem : Nat → α} {off : Nat} :
    ∀ {parts : List (List α)}, readRange mem off parts.flatten.length = parts.flatten →
      ∀ {i : Nat} (hi : i < parts.length),
        readRange mem (off + startOf (parts.map List.length) i) parts[i].length = parts[i]
  | [], _, i, hi => absurd hi (Nat.not_lt_zero i)
  | p :: ps, h, i, hi => by
    rw [List.flatten_cons, List.length_append, readRange_add] at h
    obtain ⟨hp, hps⟩ := List.append_inj h (readRange_length _ _ _)
    cases i with
    | zero => exact hp
    | succ i =>
      have hrec := readRange_of_flatten hps (Nat.lt_of_succ_lt_succ hi)
      rw [List.map_cons, startOf_cons_succ, ← Nat.add_assoc]
      exact hrec

/-! ## Disjoint ranges -/

variable {β : Type*} {lo len : β → Nat}

/-- The half-open ranges of `a` and `b` do not meet. -/
def Apart (lo len : β → Nat) (a b : β) : Prop := lo a + len a ≤ lo b ∨ lo b + len b ≤ lo a

theorem Apart.symm {a b : β} (h : Apart lo len a b) : Apart lo len b a := Or.symm h

/-- `x` is an address of the range of `a`. -/
def InRange (lo len : β → Nat) (a : β) (x : Nat) : Prop := lo a ≤ x ∧ x < lo a + len a

instance (lo len : β → Nat) (a : β) (x : Nat) : Decidable (InRange lo len a x) :=
  inferInstanceAs (Decidable (_ ∧ _))

theorem not_inRange_of_apart {a b : β} {x : Nat} (h : Apart lo len a b)
    (ha : InRange lo len a x) : ¬ InRange lo len b x := by
  unfold Apart at h
  unfold InRange at ha ⊢
  omega

theorem find?_of_apart {x : Nat} {a : β} : ∀ {l : List β}, l.Pairwise (Apart lo len) → a ∈ l →
    InRange lo len a x → l.find? (fun b => InRange lo len b x) = some a
  | b :: l, hl, ha, hx => by
    rw [List.pairwise_cons] at hl
    rcases List.mem_cons.mp ha with rfl | ha
    · simp [hx]
    · have hb : ¬ InRange lo len b x := not_inRange_of_apart (hl.1 a ha).symm hx
      simpa [List.find?_cons, hb] using find?_of_apart hl.2 ha hx

end Srcinv.Lib
