import Mathlib.Data.List.Forall2
import Mathlib.Tactic.TypeStar

/-!
# Lists cut into blocks, and a reader that lags behind

A writer appends blocks; the first element of a block is marked.  A reader takes one element for
each block, in order, and never looks at the marks.

* `blocksOf_flatten` — cutting at the marks gives the blocks back.
* `reads_iff_inTurn` — the reader takes the heads of all blocks exactly when, from the first block
  on that has more than its head, the heads are the elements left over so far, oldest first.
* `inTurn_nil` — blocks that consist of their heads leave nothing over.
-/

namespace Srcinv.Lib

variable {α : Type*}

/-! ## Cutting at marks -/

/-- The blocks of a list whose blocks start at the elements with a mark. -/
def blocksOf (mark : α → Bool) : List α → List (List α)
  | [] => []
  | x :: xs =>
    (x :: xs.takeWhile fun y => !mark y) :: blocksOf mark (xs.dropWhile fun y => !mark y)
termination_by l => l.length
decreasing_by exact Nat.lt_succ_of_le (List.dropWhile_suffix _).length_le

/-- A block: a marked element, then unmarked ones. -/
def IsBlock (mark : α → Bool) (b : List α) : Prop :=
  ∃ x xs, b = x :: xs ∧ mark x = true ∧ ∀ y ∈ xs, mark y = false

theorem takeWhile_block {mark : α → Bool} {xs : List α} (hxs : ∀ y ∈ xs, mark y = false)
    {bs : List (List α)} (hbs : ∀ b ∈ bs, IsBlock mark b) :
    (xs ++ bs.flatten).takeWhile (fun y => !mark y) = xs ∧
      (xs ++ bs.flatten).dropWhile (fun y => !mark y) = bs.flatten := by
  induction xs with
  | nil =>
    cases bs with
    | nil => exact ⟨rfl, rfl⟩
    | cons b bs =>
      obtain ⟨x, xs, rfl, hx, -⟩ := hbs b List.mem_cons_self
      simp [hx]
  | cons y ys ih =>
    obtain ⟨h1, h2⟩ := ih fun z hz => hxs z (List.mem_cons_of_mem y hz)
    have hy := hxs y List.mem_cons_self
    simp only [List.cons_append, List.takeWhile_cons, List.dropWhile_cons, hy, Bool.not_false,
      if_true, h1, h2, and_self]

/-- **Cutting at the marks gives the blocks back.** -/
theorem blocksOf_flatten {mark : α → Bool} : ∀ {bs : List (List α)},
    (∀ b ∈ bs, IsBlock mark b) → blocksOf mark bs.flatten = bs
  | [], _ => by
    rw [List.flatten_nil, blocksOf]
  | b :: bs, h => by
    obtain ⟨x, xs, rfl, -, hxs⟩ := h b List.mem_cons_self
    have hbs := fun c hc => h c (List.mem_cons_of_mem _ hc)
    obtain ⟨h1, h2⟩ := takeWhile_block hxs hbs
    rw [List.flatten_cons, List.cons_append, blocksOf, h1, h2, blocksOf_flatten hbs]

theorem length_le_flatten : ∀ {bs : List (List α)}, (∀ b ∈ bs, b ≠ []) →
    bs.length ≤ bs.flatten.length
  | [], _ => Nat.le_refl 0
  | b :: bs, h => by
    have hb := List.length_pos_of_ne_nil (h b List.mem_cons_self)
    have ih := length_le_flatten fun c hc => h c (List.mem_cons_of_mem b hc)
    rw [List.flatten_cons, List.length_append, List.length_cons]
    omega

theorem IsBlock.ne_nil {mark : α → Bool} {b : List α} (h : IsBlock mark b) : b ≠ [] := by
  obtain ⟨x, xs, rfl, -⟩ := h
  simp

/-- A property of the elements and their positions, over two lists one after the other. -/
theorem forall_getElem_append {P : Nat → α → Prop} {xs ys : List α} :
    (∀ n (hn : n < (xs ++ ys).length), P n (xs ++ ys)[n]) ↔
      (∀ i (hi : i < xs.length), P i xs[i]) ∧
        ∀ i (hi : i < ys.length), P (xs.length + i) ys[i] := by
  constructor
  · intro h
    refine ⟨fun i hi => ?_, fun i hi => ?_⟩
    · have := h i (by rw [List.length_append]; omega)
      rwa [List.getElem_append_left hi] at this
    · have := h (xs.length + i) (by rw [List.length_append]; omega)
      simpa using this
  · rintro ⟨hx, hy⟩ n hn
    by_cases hlt : n < xs.length
    · rw [List.getElem_append_left hlt]
      exact hx n hlt
    · obtain ⟨i, rfl⟩ := Nat.exists_eq_add_of_le (Nat.le_of_not_lt hlt)
      rw [List.length_append] at hn
      simpa using hy i (by omega)

/-- A list related to a concatenation is a concatenation of related blocks. -/
theorem forall₂_flatten_left {β : Type*} {R : α → β → Prop} : ∀ {bs : List (List α)} {l : List β},
    List.Forall₂ R bs.flatten l → ∃ bs', l = bs'.flatten ∧ List.Forall₂ (List.Forall₂ R) bs bs'
  | [], l, h => by
    cases l with
    | nil => exact ⟨[], rfl, .nil⟩
    | cons y ys => cases h
  | b :: bs, l, h => by
    rw [List.flatten_cons] at h
    have htake := List.forall₂_take_append l b bs.flatten h.flip
    have hdrop := List.forall₂_drop_append l b bs.flatten h.flip
    obtain ⟨bs', hl, hbs⟩ := forall₂_flatten_left hdrop.flip
    refine ⟨l.take b.length :: bs', ?_, .cons htake.flip hbs⟩
    rw [List.flatten_cons, ← hl, List.take_append_drop]

/-! ## The lagging reader -/

/-- With the elements `queue` left over, the heads of the blocks come in turn. -/
def InTurn : List α → List (List α) → Prop
  | _, [] => True
  | [], b :: bs => InTurn b.tail bs
  | q :: queue, b :: bs => b.head? = some q ∧ InTurn (queue ++ b) bs

/-- **One element for each block.** -/
theorem reads_iff_inTurn : ∀ (bs : List (List α)) (queue : List α), (∀ b ∈ bs, b ≠ []) →
    ((∀ n (hn : n < bs.length), (queue ++ bs.flatten)[n]? = bs[n].head?) ↔ InTurn queue bs)
  | [], queue, _ => by
    simp [InTurn]
  | b :: bs, [], h => by
    have hb := h b List.mem_cons_self
    obtain ⟨x, xs, rfl⟩ := List.exists_cons_of_ne_nil hb
    have ih := reads_iff_inTurn bs xs fun c hc => h c (List.mem_cons_of_mem _ hc)
    rw [InTurn, List.tail_cons, ← ih]
    constructor
    · intro hr n hn
      simpa using hr (n + 1) (Nat.succ_lt_succ hn)
    · intro hr n hn
      cases n with
      | zero => simp
      | succ n => simpa using hr n (Nat.lt_of_succ_lt_succ hn)
  | b :: bs, q :: queue, h => by
    have ih := reads_iff_inTurn bs (queue ++ b) fun c hc => h c (List.mem_cons_of_mem _ hc)
    rw [InTurn, ← ih]
    constructor
    · intro hr
      refine ⟨by simpa using (hr 0 (Nat.zero_lt_succ _)).symm, fun n hn => ?_⟩
      simpa using hr (n + 1) (Nat.succ_lt_succ hn)
    · rintro ⟨hq, hr⟩ n hn
      cases n with
      | zero => simpa using hq.symm
      | succ n => simpa using hr n (Nat.lt_of_succ_lt_succ hn)

/-- Blocks without left over elements are read right. -/
theorem inTurn_nil : ∀ {bs : List (List α)}, (∀ b ∈ bs.dropLast, b.tail = []) → InTurn [] bs
  | [], _ => trivial
  | [b], _ => by simp [InTurn]
  | b :: c :: bs, h => by
    have hb : b.tail = [] := h b (by simp)
    rw [InTurn, hb]
    exact inTurn_nil fun d hd => h d (by simp [hd])

end Srcinv.Lib
