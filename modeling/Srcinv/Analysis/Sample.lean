import Mathlib.Logic.Equiv.Defs
import Mathlib.Data.List.FinRange
import Mathlib.Data.Fintype.Card
import Srcinv.Lib.Run

/-!
# Sample sets (`analysis/sample.c`, `hacking/staticchk.cc`)

A sample set runs some sample states side by side; each state goes through its entry functions
and records the code paths it takes.  A finished set is saved unless one like it is saved already.

* `sampleSetSame_eq` — the comparison of two sets sees nothing but their counts.
* `exists_exact` — for which saved lists and new sets `sample_set_exists` answers rightly, and for
  which runs of the driver the saved list holds each finished set once.
-/

namespace Srcinv.Analysis

open Srcinv.Lib

/-- `struct fn_list`: a frame of a sample state. -/
structure FnList where
  fn : Nat
  curpos : Nat
  deriving DecidableEq, Repr

/-- `struct sample_state`.  The pointer `entries` is `NULL` when there are none; `entry_count` has
    eight bits and `entry_curidx` is a signed byte. -/
structure SampleState where
  fnList : List FnList
  cpList : List Nat
  entries : List Nat
  entryCuridx : Int
  entries_lt : entries.length < 256

def SampleState.entryCount (s : SampleState) : Nat := s.entries.length

/-- `sample_state_alloc`. -/
def sampleStateAlloc : SampleState := ⟨[], [], [], -1, by decide⟩

/-- `struct sample_set`; `count` has eight bits. -/
structure SampleSet where
  count : Nat
  samples : Fin count → SampleState
  count_lt : count < 256

/-! ## Comparing sample sets -/

/-- A `size_t` as an `int`. -/
def toInt (n : Nat) : Int := (n : Int).bmod 4294967296

/-- `sample_state_same`. -/
def sampleStateSame (state0 state1 : SampleState) : Bool :=
  let cnt0 := state0.cpList.length
  let cnt1 := state1.cpList.length
  if cnt0 ≠ cnt1 then false
  else (List.range (toInt cnt0).toNat).all fun i => state0.cpList[i]? = state1.cpList[i]?

variable {n : Nat} {α : Type*}

/-- The loop over `j`: the index of each state that matches is taken, and `matched` is what the
    last index that was not taken left. -/
def matchRow [DecidableEq α] (same : α → Bool) : List α → Bool → List α → Bool × List α
  | [], matched, matchedIdx => (matched, matchedIdx)
  | j :: js, matched, matchedIdx =>
    if j ∈ matchedIdx then matchRow same js matched matchedIdx
    else if same j then matchRow same js true (matchedIdx ++ [j])
    else matchRow same js false matchedIdx

/-- The loop over `i`. -/
def matchRows [DecidableEq α] (same : α → α → Bool) (all : List α) : List α → List α → Bool
  | [], _ => true
  | i :: is, matchedIdx =>
    match matchRow (same i) all false matchedIdx with
    | (true, matchedIdx) => matchRows same all is matchedIdx
    | (false, _) => false

/-- `sample_set_same`: both states that are compared are those of `saved`. -/
def sampleSetSame (saved new : SampleSet) : Bool :=
  if saved.count ≠ new.count then false
  else matchRows (fun i j => sampleStateSame (saved.samples i) (saved.samples j))
    (List.finRange saved.count) (List.finRange saved.count) []

/-- `sample_set_exists`. -/
def sampleSetExists (sampleSetHead : List SampleSet) (sset : SampleSet) : Bool :=
  sampleSetHead.any fun tmp => sampleSetSame tmp sset

/-- `sample_set_validate`. -/
def sampleSetValidate (_ : SampleSet) : Int := 0

/-- `save_sample_state` into a new state. -/
def saveSampleState (src : SampleState) : SampleState :=
  { sampleStateAlloc with
    cpList := src.cpList
    entries := src.entries
    entries_lt := src.entries_lt }

/-- `save_sample_set`. -/
def saveSampleSet (sset : SampleSet) : SampleSet :=
  { sset with samples := fun i => saveSampleState (sset.samples i) }

/-- The end of `staticchk_sample_set` for a set that no error stopped. -/
def checkSaved (sampleSetHead : List SampleSet) (sset : SampleSet) : List SampleSet :=
  if !sampleSetExists sampleSetHead sset && sampleSetValidate sset = 0 then
    sampleSetHead ++ [saveSampleSet sset]
  else sampleSetHead

/-! ## Saved sets that differ -/

/-- The states of two sets can be paired so that paired states took the same code paths. -/
def Equivalent (a b : SampleSet) : Prop :=
  ∃ pair : Fin a.count ≃ Fin b.count, ∀ i, (a.samples i).cpList = (b.samples (pair i)).cpList

/-- The saved sets, with the finished ones, which the code does not keep. -/
structure SavedSets where
  sampleSetHead : List SampleSet
  finished : List SampleSet

/-- How a run of `staticchk_sample_set` ends. -/
inductive CheckEnd where
  | decErr
  | checkSaved (sset : SampleSet)

def staticchkStep (src : SavedSets) : CheckEnd → Option SavedSets
  | .decErr => some src
  | .checkSaved sset =>
    some ⟨checkSaved src.sampleSetHead sset, sset :: src.finished⟩

/-- The saved sets are different, and each finished set is among them. -/
def SavedRight (src : SavedSets) : Prop :=
  src.sampleSetHead.Pairwise (fun a b => ¬ Equivalent a b) ∧
    ∀ sset ∈ src.finished, ∃ saved ∈ src.sampleSetHead, Equivalent saved sset

/-- The counts alone tell whether the set is saved already. -/
def CountsTell (sampleSetHead : List SampleSet) (sset : SampleSet) : Prop :=
  (sset.count = 1 → (∃ saved ∈ sampleSetHead, saved.count = 1) →
    ∃ saved ∈ sampleSetHead, Equivalent saved sset) ∧
  (1 < sset.count → ∀ saved ∈ sampleSetHead, ¬ Equivalent saved sset)

/-- The guard of a run. -/
def EndTells (src : SavedSets) : CheckEnd → Prop
  | .decErr => True
  | .checkSaved sset => CountsTell src.sampleSetHead sset

/-! ## The comparison -/

theorem sampleStateSame_refl (s : SampleState) : sampleStateSame s s = true := by
  simp [sampleStateSame]

theorem sampleStateSame_iff (s t : SampleState) : sampleStateSame s t = true ↔
    s.cpList.length = t.cpList.length ∧
      ∀ i < (toInt s.cpList.length).toNat, s.cpList[i]? = t.cpList[i]? := by
  unfold sampleStateSame
  simp only
  split
  · rename_i hne
    simp [hne]
  · rename_i heq
    simp only [ne_eq, Decidable.not_not] at heq
    simp [heq]

/-- Comparing two states of one set is transitive the way the matching needs it. -/
theorem sampleStateSame_trans {r s t : SampleState} (hrs : sampleStateSame r s = true)
    (hst : sampleStateSame s t = true) : sampleStateSame r t = true := by
  rw [sampleStateSame_iff] at hrs hst ⊢
  refine ⟨hrs.1.trans hst.1, fun i hi => (hrs.2 i hi).trans (hst.2 i ?_)⟩
  rw [← hrs.1]
  exact hi

section Matching

variable [DecidableEq α] {same : α → Bool}

/-- The indices that are taken after a row. -/
theorem mem_matchRow {js idx : List α} {m : Bool} (j : α) :
    j ∈ (matchRow same js m idx).2 ↔ j ∈ idx ∨ (j ∈ js ∧ same j = true) := by
  induction js generalizing m idx with
  | nil => simp [matchRow]
  | cons k js ih =>
    unfold matchRow
    split
    · rename_i hk
      rw [ih, List.mem_cons]
      constructor
      · rintro (h | h)
        · exact Or.inl h
        · exact Or.inr ⟨Or.inr h.1, h.2⟩
      · rintro (h | ⟨rfl | h, hs⟩)
        · exact Or.inl h
        · exact Or.inl hk
        · exact Or.inr ⟨h, hs⟩
    split
    · rename_i hs
      rw [ih, List.mem_append, List.mem_singleton, List.mem_cons]
      constructor
      · rintro ((h | rfl) | h)
        · exact Or.inl h
        · exact Or.inr ⟨Or.inl rfl, hs⟩
        · exact Or.inr ⟨Or.inr h.1, h.2⟩
      · rintro (h | ⟨rfl | h, hs'⟩)
        · exact Or.inl (Or.inl h)
        · exact Or.inl (Or.inr rfl)
        · exact Or.inr ⟨h, hs'⟩
    · rename_i hs
      rw [ih, List.mem_cons]
      constructor
      · rintro (h | h)
        · exact Or.inl h
        · exact Or.inr ⟨Or.inr h.1, h.2⟩
      · rintro (h | ⟨rfl | h, hs'⟩)
        · exact Or.inl h
        · exact absurd hs' hs
        · exact Or.inr ⟨h, hs'⟩

/-- A row that matches has an index that was not taken. -/
theorem matchRow_true {js idx : List α} {m : Bool} (h : (matchRow same js m idx).1 = true) :
    m = true ∨ ∃ j ∈ js, j ∉ idx ∧ same j = true := by
  induction js generalizing m idx with
  | nil => exact Or.inl h
  | cons k js ih =>
    unfold matchRow at h
    split at h
    · obtain hm | ⟨j, hj, hidx, hs⟩ := ih h
      · exact Or.inl hm
      · exact Or.inr ⟨j, List.mem_cons_of_mem k hj, hidx, hs⟩
    rename_i hk
    split at h
    · rename_i hs
      exact Or.inr ⟨k, List.mem_cons_self, hk, hs⟩
    · obtain hm | ⟨j, hj, hidx, hs⟩ := ih h
      · cases hm
      · exact Or.inr ⟨j, List.mem_cons_of_mem k hj, hidx, hs⟩

/-- A row that matches ends with a match. -/
theorem matchRow_last {js idx : List α} {m : Bool} {l : α} (hjs : l ∉ js) (hidx : l ∉ idx)
    (h : (matchRow same (js ++ [l]) m idx).1 = true) : same l = true := by
  induction js generalizing m idx with
  | nil =>
    simp only [List.nil_append, matchRow, if_neg hidx] at h
    split at h
    · assumption
    · cases h
  | cons k js ih =>
    have hk : l ≠ k := fun hlk => hjs (hlk ▸ List.mem_cons_self)
    have hjs' : l ∉ js := fun hl => hjs (List.mem_cons_of_mem k hl)
    rw [List.cons_append] at h
    unfold matchRow at h
    split at h
    · exact ih hjs' hidx h
    split at h
    · refine ih hjs' ?_ h
      simp [hidx, hk]
    · exact ih hjs' hidx h

/-- The rows keep what is taken, and each later one needs an index that is not. -/
theorem matchRows_free {same : α → α → Bool} {all is idx : List α}
    (h : matchRows same all is idx = true) {i : α} (hi : i ∈ is) :
    ∃ j ∈ all, j ∉ idx ∧ same i j = true := by
  induction is generalizing idx with
  | nil => cases hi
  | cons k is ih =>
    unfold matchRows at h
    split at h
    · rename_i idx' hrow
      obtain rfl | hi := List.mem_cons.mp hi
      · obtain hm | hfree := matchRow_true (by rw [hrow])
        · cases hm
        · exact hfree
      · obtain ⟨j, hj, hidx, hs⟩ := ih h hi
        refine ⟨j, hj, fun hmem => hidx ?_, hs⟩
        have hkeep : j ∈ (matchRow (same k) all false idx).2 := (mem_matchRow j).mpr (Or.inl hmem)
        rwa [hrow] at hkeep
    · cases h

end Matching

/-- With two or more states the first row takes the last index, which leaves the last row none. -/
theorem matchRows_many {same : Fin (n + 2) → Fin (n + 2) → Bool}
    (htrans : ∀ i j k, same i j = true → same j k = true → same i k = true) :
    matchRows same (List.finRange (n + 2)) (List.finRange (n + 2)) [] = false := by
  by_contra h
  rw [Bool.not_eq_false] at h
  have hhead : List.finRange (n + 2) = 0 :: (List.finRange (n + 1)).map Fin.succ :=
    List.finRange_succ
  rw [show matchRows same (List.finRange (n + 2)) (List.finRange (n + 2)) [] =
      matchRows same (List.finRange (n + 2)) (0 :: (List.finRange (n + 1)).map Fin.succ) []
    from congrArg (fun is => matchRows same (List.finRange (n + 2)) is []) hhead] at h
  unfold matchRows at h
  split at h
  · rename_i idx hrow
    have hlast : same 0 (Fin.last (n + 1)) = true := by
      have hrow' : (matchRow (same 0) (List.finRange (n + 2)) false []).1 = true := by rw [hrow]
      rw [List.finRange_succ_last] at hrow'
      refine matchRow_last ?_ (by simp) hrow'
      simp only [List.mem_map, not_exists, not_and]
      intro i _ hi
      exact absurd hi (Fin.castSucc_lt_last i).ne
    have hmem : Fin.last (n + 1) ∈ (List.finRange (n + 1)).map Fin.succ :=
      List.mem_map.mpr ⟨Fin.last n, List.mem_finRange _, Fin.succ_last n⟩
    obtain ⟨j, hj, hidx, hs⟩ := matchRows_free h hmem
    apply hidx
    have htaken : j ∈ (matchRow (same 0) (List.finRange (n + 2)) false []).2 :=
      (mem_matchRow j).mpr (Or.inr ⟨hj, htrans _ _ _ hlast hs⟩)
    rwa [hrow] at htaken
  · cases h

/-- **The comparison of two sets sees only their counts.** -/
theorem sampleSetSame_eq (saved new : SampleSet) :
    sampleSetSame saved new = true ↔ saved.count = new.count ∧ saved.count ≤ 1 := by
  obtain ⟨count, samples, hlt⟩ := saved
  unfold sampleSetSame
  by_cases hcount : count = new.count
  · simp only [hcount, ne_eq, not_true_eq_false, if_false, true_and]
    rw [← hcount]
    match count, samples with
    | 0, _ => simp [matchRows]
    | 1, samples =>
      have hrow : matchRow (fun j => sampleStateSame (samples 0) (samples j)) (List.finRange 1)
          false [] = (true, [0]) := by
        have hself : sampleStateSame (samples 0) (samples 0) = true := sampleStateSame_refl _
        simp [List.finRange_succ, matchRow, hself]
      simp only [List.finRange_succ, List.finRange_zero, List.map_nil] at hrow ⊢
      simp [matchRows, hrow]
    | n + 2, samples =>
      have htrans : ∀ i j k, sampleStateSame (samples i) (samples j) = true →
          sampleStateSame (samples j) (samples k) = true →
            sampleStateSame (samples i) (samples k) = true := fun _ _ _ => sampleStateSame_trans
      rw [matchRows_many htrans]
      simp
  · simp [hcount]

/-! ## Saving sets -/

theorem Equivalent.count_eq {a b : SampleSet} (h : Equivalent a b) : a.count = b.count := by
  obtain ⟨pair, -⟩ := h
  simpa using Fintype.card_congr pair

theorem Equivalent.symm {a b : SampleSet} (h : Equivalent a b) : Equivalent b a := by
  obtain ⟨pair, hpair⟩ := h
  exact ⟨pair.symm, fun i => by rw [hpair, Equiv.apply_symm_apply]⟩

theorem Equivalent.trans {a b c : SampleSet} (h : Equivalent a b) (h' : Equivalent b c) :
    Equivalent a c := by
  obtain ⟨pair, hpair⟩ := h
  obtain ⟨pair', hpair'⟩ := h'
  exact ⟨pair.trans pair', fun i => (hpair i).trans (hpair' (pair i))⟩

/-- The saved copy took the code paths of the set. -/
theorem equivalent_saveSampleSet (sset : SampleSet) : Equivalent (saveSampleSet sset) sset :=
  ⟨Equiv.refl _, fun _ => rfl⟩

/-- Sets without states are all alike. -/
theorem equivalent_of_empty {a b : SampleSet} (ha : a.count = 0) (hb : b.count = 0) :
    Equivalent a b := by
  obtain ⟨_, samples, _⟩ := a
  obtain ⟨_, samples', _⟩ := b
  subst ha hb
  exact ⟨Equiv.refl _, fun i => i.elim0⟩

theorem sampleSetExists_iff (head : List SampleSet) (sset : SampleSet) :
    sampleSetExists head sset = true ↔
      ∃ saved ∈ head, saved.count = sset.count ∧ saved.count ≤ 1 := by
  simp only [sampleSetExists, List.any_eq_true, sampleSetSame_eq]

/-- **When `sample_set_exists` is right about a set.** -/
theorem sampleSetExists_right (head : List SampleSet) (sset : SampleSet) :
    (sampleSetExists head sset = true ↔ ∃ saved ∈ head, Equivalent saved sset) ↔
      CountsTell head sset := by
  rw [sampleSetExists_iff]
  constructor
  · refine fun h => ⟨fun hone ⟨saved, hmem, hsaved⟩ => h.mp ⟨saved, hmem, ?_, ?_⟩,
      fun hmany saved hmem heq => ?_⟩
    · omega
    · omega
    · obtain ⟨saved', -, hcount, hle⟩ := h.mpr ⟨saved, hmem, heq⟩
      omega
  · rintro ⟨hone, hmany⟩
    constructor
    · rintro ⟨saved, hmem, hcount, hle⟩
      by_cases hzero : sset.count = 0
      · exact ⟨saved, hmem, equivalent_of_empty (by omega) hzero⟩
      · exact hone (by omega) ⟨saved, hmem, by omega⟩
    · rintro ⟨saved, hmem, heq⟩
      have hcount := heq.count_eq
      refine ⟨saved, hmem, hcount, ?_⟩
      by_contra hlt
      exact hmany (by omega) saved hmem heq

variable {src src' : SavedSets}

/-- A set that `sample_set_exists` is right about is saved once. -/
theorem savedRight_step (hi : SavedRight src) {e : CheckEnd} (hg : EndTells src e)
    (h : staticchkStep src e = some src') : SavedRight src' := by
  cases e with
  | decErr =>
    cases h
    exact hi
  | checkSaved sset =>
    cases h
    have hexists := (sampleSetExists_right src.sampleSetHead sset).mpr hg
    obtain ⟨hdiff, hall⟩ := hi
    unfold checkSaved
    split
    · rename_i hnew
      have hno : ¬ ∃ saved ∈ src.sampleSetHead, Equivalent saved sset := by
        rw [← hexists]
        simpa [sampleSetValidate] using hnew
      refine ⟨List.pairwise_append.mpr ⟨hdiff, List.pairwise_singleton .., ?_⟩, ?_⟩
      · intro saved hmem copy hcopy heq
        obtain rfl := List.mem_singleton.mp hcopy
        exact hno ⟨saved, hmem, heq.trans (equivalent_saveSampleSet sset)⟩
      · intro s hs
        obtain rfl | hs := List.mem_cons.mp hs
        · exact ⟨_, List.mem_append_right _ List.mem_cons_self, equivalent_saveSampleSet s⟩
        · obtain ⟨saved, hmem, heq⟩ := hall s hs
          exact ⟨saved, List.mem_append_left _ hmem, heq⟩
    · rename_i hold
      have hyes : ∃ saved ∈ src.sampleSetHead, Equivalent saved sset := by
        rw [← hexists]
        simpa [sampleSetValidate] using hold
      refine ⟨hdiff, fun s hs => ?_⟩
      obtain rfl | hs := List.mem_cons.mp hs
      · exact hyes
      · exact hall s hs

/-- A set that `sample_set_exists` is wrong about is saved twice or left out. -/
theorem saved_breaks {e : CheckEnd} (hng : ¬ EndTells src e) :
    ∃ src', staticchkStep src e = some src' ∧ ¬ SavedRight src' := by
  cases e with
  | decErr => exact absurd trivial hng
  | checkSaved sset =>
    refine ⟨_, rfl, fun ⟨hdiff, hall⟩ => hng ?_⟩
    refine (sampleSetExists_right src.sampleSetHead sset).mp ?_
    unfold checkSaved at hdiff hall
    split at hdiff
    · rename_i hnew
      have hno : sampleSetExists src.sampleSetHead sset = false := by
        simpa [sampleSetValidate] using hnew
      rw [hno]
      refine ⟨fun h => (by cases h), fun ⟨saved, hmem, heq⟩ => ?_⟩
      exact absurd (heq.trans (equivalent_saveSampleSet sset).symm)
        ((List.pairwise_append.mp hdiff).2.2 saved hmem _ List.mem_cons_self)
    · rename_i hold
      have hyes : sampleSetExists src.sampleSetHead sset = true := by
        simpa [sampleSetValidate] using hold
      simp only [if_neg hold] at hall
      exact ⟨fun _ => hall sset List.mem_cons_self, fun _ => hyes⟩

/-- **`sample_set_exists` answers rightly exactly where the counts tell, and over a run of the
    driver the saved list holds each finished set once exactly when they tell each time.** -/
theorem exists_exact (head : List SampleSet) (sset : SampleSet) (ends : List CheckEnd) :
    ((sampleSetExists head sset = true ↔ ∃ saved ∈ head, Equivalent saved sset) ↔
      CountsTell head sset) ∧
    (Visits staticchkStep SavedRight ⟨[], []⟩ ends ↔
      Along staticchkStep EndTells ⟨[], []⟩ ends) := by
  refine ⟨sampleSetExists_right head sset, ?_⟩
  have hstep : ∀ src e src', SavedRight src → EndTells src e → staticchkStep src e = some src' →
      SavedRight src' := fun _ _ _ hi hg h => savedRight_step hi hg h
  apply visits_iff_along hstep
  · exact fun _ hi => hi
  · exact fun _ _ _ hng => saved_breaks hng
  · exact ⟨List.Pairwise.nil, by simp⟩

/-- A set of one state that took one code path. -/
def onePath (cp : Nat) : SampleSet where
  count := 1
  samples _ := ⟨[], [cp], [], -1, by decide⟩
  count_lt := by decide

/-- A second set of one state is taken for the first one. -/
theorem second_path_exists :
    ¬ (sampleSetExists [onePath 1] (onePath 2) = true ↔
      ∃ saved ∈ [onePath 1], Equivalent saved (onePath 2)) := by
  intro h
  obtain ⟨saved, hmem, pair, hpair⟩ := h.mp (by decide)
  obtain rfl := List.mem_singleton.mp hmem
  have hpath : [1] = [2] := hpair ⟨0, Nat.one_pos⟩
  cases hpath

end Srcinv.Analysis
