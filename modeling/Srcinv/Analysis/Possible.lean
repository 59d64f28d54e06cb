import Srcinv.Analysis.CallTrace

/-!
# The possible values of a variable (`analysis/sinode.c`, `si_helper.h`)

`add_possible` appends a value with its kind if `possible_list_find` does not find it.  That looks
for the number alone, so that a value is lost if the list has the same number with another kind.

* `FirstOnce` — what the list should be: every pair once, in the order of first addition.
* `addPossibles_list` — what is added to one variable does not depend on the others.
* `possible_exact` — every list is right exactly where no number is added with two kinds.
-/

namespace Srcinv.Analysis

/-- One call of `add_possible`. -/
structure PossibleCall where
  vn : Nat
  valueFlag : ValueFlag
  value : Nat
  extra : Nat
  deriving DecidableEq, Repr

/-- The pair that a call adds. -/
def PossibleCall.pair (c : PossibleCall) : ValueFlag × Nat := (c.valueFlag, c.value)

/-- The pair of an entry. -/
def PossibleList.pair (e : PossibleList) : ValueFlag × Nat := (e.valueFlag, e.value)

/-- A sequence of calls, on any variables. -/
def addPossibles (s : TraceState) (calls : List PossibleCall) : Option TraceState :=
  calls.foldlM (fun s c => ((addPossible c.vn c.valueFlag c.value c.extra).run s).map Prod.snd) s

/-- The calls on one variable, of its list. -/
def addAllTo (head : List PossibleList) (calls : List PossibleCall) : List PossibleList :=
  calls.foldl (fun head c => addPossibleTo head c.valueFlag c.value c.extra) head

/-- **Each pair once, in the order of first addition.** -/
structure FirstOnce (calls pairs : List (ValueFlag × Nat)) : Prop where
  mem : ∀ p, p ∈ pairs ↔ p ∈ calls
  order : pairs.Pairwise fun p q => calls.idxOf p < calls.idxOf q

/-- No number is added with two kinds. -/
def OneKind (calls : List (ValueFlag × Nat)) : Prop :=
  ∀ p ∈ calls, ∀ q ∈ calls, p.2 = q.2 → p.1 = q.1

/-! ## One variable at a time -/

variable {head : List PossibleList} {calls : List PossibleCall} {c : PossibleCall}

/-- The lists after a call. -/
def TraceState.added (s : TraceState) (c : PossibleCall) : TraceState :=
  ⟨s.fns, Function.update s.possible c.vn
    (addPossibleTo (s.possible c.vn) c.valueFlag c.value c.extra)⟩

theorem addPossible_run (s : TraceState) (c : PossibleCall) :
    (addPossible c.vn c.valueFlag c.value c.extra).run s = some ((), s.added c) := rfl

/-- **Every variable has what the calls on it add.** -/
theorem addPossibles_list (s : TraceState) (calls : List PossibleCall) :
    ∃ s', addPossibles s calls = some s' ∧
      ∀ vn, s'.possible vn = addAllTo (s.possible vn) (calls.filter (·.vn = vn)) := by
  induction calls generalizing s with
  | nil => exact ⟨s, rfl, fun _ => rfl⟩
  | cons c calls ih =>
    obtain ⟨s', hs', hlists⟩ := ih (s.added c)
    refine ⟨s', ?_, fun vn => ?_⟩
    · unfold addPossibles
      rw [List.foldlM_cons, addPossible_run]
      exact hs'
    · rw [hlists vn, TraceState.added]
      by_cases hvn : c.vn = vn
      · subst hvn
        rw [List.filter_cons_of_pos (by simp)]
        dsimp only
        rw [Function.update_self]
        rfl
      · rw [List.filter_cons_of_neg (by simpa using hvn)]
        dsimp only
        rw [Function.update_of_ne fun h => hvn h.symm]

/-! ## The list of one variable -/

theorem addAllTo_snoc (head : List PossibleList) (calls : List PossibleCall) (c : PossibleCall) :
    addAllTo head (calls ++ [c]) =
      addPossibleTo (addAllTo head calls) c.valueFlag c.value c.extra := by
  unfold addAllTo
  rw [List.foldl_append]
  rfl

/-- What one call does: nothing if the number is there, with whatever kind. -/
theorem addPossibleTo_pairs (head : List PossibleList) (c : PossibleCall) :
    (addPossibleTo head c.valueFlag c.value c.extra).map PossibleList.pair =
      if ∃ p ∈ head.map PossibleList.pair, p.2 = c.value then head.map PossibleList.pair
      else head.map PossibleList.pair ++ [c.pair] := by
  unfold addPossibleTo possibleListFind
  cases hfind : head.find? fun tmp => tmp.value = c.value with
  | some e =>
    have hvalue : e.value = c.value := by simpa using List.find?_some hfind
    have hthere : ∃ p ∈ head.map PossibleList.pair, p.2 = c.value :=
      ⟨e.pair, List.mem_map_of_mem (List.mem_of_find?_eq_some hfind), hvalue⟩
    rw [if_pos hthere]
  | none =>
    have hno : ¬ ∃ p ∈ head.map PossibleList.pair, p.2 = c.value := by
      rintro ⟨p, hp, hvalue⟩
      obtain ⟨e, he, rfl⟩ := List.mem_map.mp hp
      exact List.find?_eq_none.mp hfind e he (decide_eq_true hvalue)
    rw [if_neg hno, List.map_append]
    rfl

/-- The pairs of the list after the calls. -/
def pairsAfter (calls : List PossibleCall) : List (ValueFlag × Nat) :=
  (addAllTo [] calls).map PossibleList.pair

/-- Only what was passed is in the list, and every number that was passed is. -/
theorem pairsAfter_mem (calls : List PossibleCall) :
    (∀ p ∈ pairsAfter calls, p ∈ calls.map PossibleCall.pair) ∧
      ∀ c ∈ calls, ∃ p ∈ pairsAfter calls, p.2 = c.value := by
  induction calls using List.reverseRecOn with
  | nil => exact ⟨fun p hp => (by cases hp), fun c hc => (by cases hc)⟩
  | append_singleton calls c ih =>
    obtain ⟨hin, hthere⟩ := ih
    unfold pairsAfter at hin hthere ⊢
    rw [addAllTo_snoc, addPossibleTo_pairs, List.map_append]
    split
    · rename_i hfound
      refine ⟨fun p hp => List.mem_append_left _ (hin p hp), fun c' hc' => ?_⟩
      obtain hc' | hc' := List.mem_append.mp hc'
      · exact hthere c' hc'
      · rw [List.mem_singleton.mp hc']
        exact hfound
    · refine ⟨fun p hp => ?_, fun c' hc' => ?_⟩
      · obtain hp | hp := List.mem_append.mp hp
        · exact List.mem_append_left _ (hin p hp)
        · exact List.mem_append_right _ hp
      · obtain hc' | hc' := List.mem_append.mp hc'
        · obtain ⟨p, hp, hvalue⟩ := hthere c' hc'
          exact ⟨p, List.mem_append_left _ hp, hvalue⟩
        · rw [List.mem_singleton.mp hc']
          exact ⟨c.pair, List.mem_append_right _ (List.mem_singleton.mpr rfl), rfl⟩

/-- The places of what was passed before do not change. -/
theorem idxOf_snoc {l : List (ValueFlag × Nat)} {p : ValueFlag × Nat} (hp : p ∈ l)
    (q : ValueFlag × Nat) : (l ++ [q]).idxOf p = l.idxOf p := by
  rw [List.idxOf_append, if_pos hp]

theorem firstOnce_of_oneKind {calls : List PossibleCall}
    (hone : OneKind (calls.map PossibleCall.pair)) :
    FirstOnce (calls.map PossibleCall.pair) (pairsAfter calls) := by
  refine ⟨fun p => ⟨(pairsAfter_mem calls).1 p, fun hp => ?_⟩, ?_⟩
  · obtain ⟨c, hc, rfl⟩ := List.mem_map.mp hp
    obtain ⟨q, hq, hvalue⟩ := (pairsAfter_mem calls).2 c hc
    have hflag := hone q ((pairsAfter_mem calls).1 q hq) c.pair hp hvalue
    exact Prod.ext hflag hvalue ▸ hq
  · clear hone
    induction calls using List.reverseRecOn with
    | nil => exact List.Pairwise.nil
    | append_singleton calls c ih =>
      have hin := (pairsAfter_mem calls).1
      unfold pairsAfter at ih hin ⊢
      have hold : ((addAllTo [] calls).map PossibleList.pair).Pairwise fun p q =>
          (calls.map PossibleCall.pair ++ [c.pair]).idxOf p <
            (calls.map PossibleCall.pair ++ [c.pair]).idxOf q := by
        refine List.Pairwise.imp_of_mem (fun {p q} hp hq hlt => ?_) ih
        rw [idxOf_snoc (hin p hp), idxOf_snoc (hin q hq)]
        exact hlt
      rw [addAllTo_snoc, addPossibleTo_pairs, List.map_append]
      split
      · exact hold
      · rename_i hno
        have hnew : c.pair ∉ calls.map PossibleCall.pair := by
          intro hmem
          obtain ⟨c', hc', heq⟩ := List.mem_map.mp hmem
          obtain ⟨q, hq, hvalue⟩ := (pairsAfter_mem calls).2 c' hc'
          exact hno ⟨q, hq, hvalue.trans (congrArg Prod.snd heq)⟩
        refine List.pairwise_append.mpr ⟨hold, List.pairwise_singleton _ _, fun p hp q hq => ?_⟩
        rw [List.mem_singleton.mp hq, List.map_singleton, idxOf_snoc (hin p hp), List.idxOf_append,
          if_neg hnew]
        have hlt := List.idxOf_lt_length_of_mem (hin p hp)
        omega

/-- The list has one kind for a number. -/
theorem pairsAfter_oneKind (calls : List PossibleCall) : OneKind (pairsAfter calls) := by
  induction calls using List.reverseRecOn with
  | nil => exact fun p hp => (by cases hp)
  | append_singleton calls c ih =>
    unfold pairsAfter at ih ⊢
    rw [addAllTo_snoc, addPossibleTo_pairs]
    split
    · exact ih
    · rename_i hno
      intro p hp q hq hvalue
      obtain hp | hp := List.mem_append.mp hp
      · obtain hq | hq := List.mem_append.mp hq
        · exact ih p hp q hq hvalue
        · rw [List.mem_singleton.mp hq] at hvalue
          exact absurd ⟨p, hp, hvalue⟩ hno
      · rw [List.mem_singleton.mp hp] at hvalue ⊢
        obtain hq | hq := List.mem_append.mp hq
        · exact absurd ⟨q, hq, hvalue.symm⟩ hno
        · rw [List.mem_singleton.mp hq]

/-- **The possible values are the pairs that were added, once each and in order, exactly where no
    number was added to the variable with two kinds.** -/
theorem possible_exact (fns : FuncNodes) (calls : List PossibleCall) (vn : Nat) :
    (∃ s', addPossibles ⟨fns, fun _ => []⟩ calls = some s' ∧
        FirstOnce ((calls.filter (·.vn = vn)).map PossibleCall.pair)
          ((s'.possible vn).map PossibleList.pair)) ↔
      OneKind ((calls.filter (·.vn = vn)).map PossibleCall.pair) := by
  obtain ⟨s', hs', hlists⟩ := addPossibles_list ⟨fns, fun _ => []⟩ calls
  have hlist : (s'.possible vn).map PossibleList.pair = pairsAfter (calls.filter (·.vn = vn)) := by
    rw [hlists vn]
    rfl
  constructor
  · rintro ⟨s₁, hs₁, hfirst⟩
    cases hs'.symm.trans hs₁
    rw [hlist] at hfirst
    intro p hp q hq hvalue
    exact pairsAfter_oneKind _ p ((hfirst.mem p).mpr hp) q ((hfirst.mem q).mpr hq) hvalue
  · intro hone
    refine ⟨s', hs', ?_⟩
    rw [hlist]
    exact firstOnce_of_oneKind hone

/-- The number 5 and then the function with the id 5: the function is lost. -/
theorem function_value_lost :
    ¬ ∃ s', addPossibles ⟨fun _ => ⟨[], [], []⟩, fun _ => []⟩
        [⟨0, .intCst, 5, 0⟩, ⟨0, .func, 5, 0⟩] = some s' ∧
      FirstOnce [(.intCst, 5), (.func, 5)] ((s'.possible 0).map PossibleList.pair) := by
  rintro ⟨s', hs', hfirst⟩
  cases hs'
  have hmem := (hfirst.mem (.func, 5)).mpr (by decide)
  simp [addPossibleTo, possibleListFind, PossibleList.pair] at hmem

end Srcinv.Analysis
