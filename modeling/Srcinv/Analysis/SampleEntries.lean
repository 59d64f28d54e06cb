import Mathlib.Logic.Function.Basic
import Srcinv.Analysis.Sample

/-!
# The entries of the sample states

`sample_state_cur_entry` answers which entry function a state is at, and moves on whenever it is
asked while no frame is live.  Both `dec_next` and `sample_set_done` ask it.

* `entries_exact` — over every order of the two calls, each state goes through its entries one by
  one and then stays at the end, exactly when no state without a frame is asked again before its
  entry has been decoded.
* `done_check_skips_entry` — the check for the end skips the second entry of a single state.
-/

namespace Srcinv.Analysis

open Srcinv.Lib

/-- A sample state with what the code does not keep: the indices of the entries that were
    decoded, the last answer, and whether the index has reached the end. -/
structure EntryState extends SampleState where
  decoded : List Int
  last : Option Nat
  exhausted : Bool

/-- A number stored in an `s8`. -/
def s8 (x : Int) : Int := (x + 128) % 256 - 128

/-- The pointer at an index of `entries`; `outside` is the memory around the array. -/
def SampleState.entryAt (s : SampleState) (outside : Int → Nat) (i : Int) : Nat :=
  if 0 ≤ i then s.entries.getD i.toNat (outside i) else outside i

variable (outside : Int → Nat)

/-- `sample_state_cur_entry`: the state after the call and the answer, 0 for `NULL`.  The first
    call reads `entries` whatever the count is. -/
def sampleStateCurEntry (s : SampleState) : Option (SampleState × Nat) :=
  if s.entryCuridx = -1 then
    if s.entries = [] then none
    else some ({ s with entryCuridx := 0 }, s.entryAt outside 0)
  else
    let curidx := if s.fnList = [] then s8 (s.entryCuridx + 1) else s.entryCuridx
    let s := { s with entryCuridx := curidx }
    if curidx = s.entryCount then some (s, 0)
    else some (s, s.entryAt outside curidx)

/-- A call of `sample_state_cur_entry`. -/
def curEntry (s : EntryState) : Option (EntryState × Nat) :=
  (sampleStateCurEntry outside s.toSampleState).map fun (s', sn) =>
    ({ s with
      toSampleState := s'
      last := some sn
      exhausted := s.exhausted || s'.entryCuridx = s'.entryCount }, sn)

variable {n : Nat}

/-- What the rest of `dec_next` meets: the `data` of the entry, its sibuf and its `lang_ops`, and
    the frames that `dec` leaves. -/
structure DecOutcome where
  data : Bool
  sibuf : Bool
  ops : Bool
  fnList : List FnList

/-- `dec_next` of the state `idx`. -/
def decNext (samples : Fin n → EntryState) (idx : Fin n) (out : DecOutcome) :
    Option (Fin n → EntryState) :=
  (curEntry outside (samples idx)).map fun (s, entryFsn) =>
    if entryFsn = 0 ∨ !out.data ∨ !out.sibuf ∨ !out.ops then Function.update samples idx s
    else Function.update samples idx { s with
      fnList := out.fnList
      decoded := if s.fnList = [] then s.decoded ++ [s.entryCuridx] else s.decoded }

/-- The loop of `sample_set_done`. -/
def sampleSetDoneLoop : List (Fin n) → (Fin n → EntryState) → Option ((Fin n → EntryState) × Bool)
  | [], samples => some (samples, true)
  | i :: is, samples =>
    match curEntry outside (samples i) with
    | none => none
    | some (s, sn) =>
      if sn ≠ 0 then some (Function.update samples i s, false)
      else sampleSetDoneLoop is (Function.update samples i s)

/-- `sample_set_done`. -/
def sampleSetDone (samples : Fin n → EntryState) : Option ((Fin n → EntryState) × Bool) :=
  sampleSetDoneLoop outside (List.finRange n) samples

/-- What the driver calls. -/
inductive EntryEvent (n : Nat) where
  | decNext (idx : Fin n) (out : DecOutcome)
  | sampleSetDone

/-- The sample set after a call; `none` when it reads through `NULL`. -/
def entryStep (samples : Fin n → EntryState) : EntryEvent n → Option (Fin n → EntryState)
  | .decNext idx out => decNext outside samples idx out
  | .sampleSetDone => (sampleSetDone outside samples).map Prod.fst

/-! ## Entries in their order -/

/-- The index of a state stays inside, all entries before it have been decoded in order, and after
    the last one the answer is `NULL`. -/
structure EntriesRight (s : EntryState) : Prop where
  inside : (s.entryCuridx = -1 ∧ s.last = none) ∨
    (0 ≤ s.entryCuridx ∧ s.entryCuridx ≤ s.entryCount)
  inOrder : s.decoded = (List.range s.decoded.length).map Int.ofNat
  bounded : s.decoded.length ≤ s.entryCount
  noneSkipped : ∀ k : Nat, (k : Int) < s.entryCuridx → (k : Int) ∈ s.decoded
  ended : s.exhausted = true → s.last = some 0

def AllRight (samples : Fin n → EntryState) : Prop := ∀ i, EntriesRight (samples i)

/-- The state may be asked: it has a frame, it has entries and is asked for the first time, or the
    entry it is at has been decoded and the index can grow. -/
def MayAsk (s : EntryState) : Prop :=
  (s.entryCuridx = -1 ∧ s.entries ≠ []) ∨
    (s.entryCuridx ≠ -1 ∧
      (s.fnList = [] → s.entryCuridx ∈ s.decoded ∧ s.entryCuridx ≠ 127))

/-- Each state that the loop of `sample_set_done` asks may be asked. -/
def DoneMayAsk : List (Fin n) → (Fin n → EntryState) → Prop
  | [], _ => True
  | i :: is, samples => MayAsk (samples i) ∧
    ∀ s, curEntry outside (samples i) = some (s, 0) → DoneMayAsk is (Function.update samples i s)

/-- The guard of a call. -/
def AsksWell (samples : Fin n → EntryState) : EntryEvent n → Prop
  | .decNext idx _ => MayAsk (samples idx)
  | .sampleSetDone => DoneMayAsk outside (List.finRange n) samples

/-- The set before its run. -/
def SetStart (samples : Fin n → EntryState) : Prop :=
  ∀ i, (samples i).fnList = [] ∧ (samples i).entryCuridx = -1 ∧ (samples i).decoded = [] ∧
    (samples i).last = none ∧ (samples i).exhausted = false

/-! ## One state -/

variable {outside} {s s' : EntryState} {sn : Nat}

/-- The index is at the entry decoded last or at the one after it. -/
structure EntryInv (s : EntryState) : Prop where
  inOrder : s.decoded = (List.range s.decoded.length).map Int.ofNat
  bounded : s.decoded.length ≤ s.entryCount
  small : s.entryCuridx ≤ 127
  place : s.entryCuridx = s.decoded.length - 1 ∨
    (s.entryCuridx = s.decoded.length ∧ s.fnList = [])
  fresh : s.entryCuridx = -1 → s.last = none ∧ s.fnList = [] ∧ s.exhausted = false
  ended : s.exhausted = true → s.entryCuridx = s.entryCount ∧ s.last = some 0

/-- The entries that were decoded. -/
theorem EntryInv.mem_decoded (hi : EntryInv s) (x : Int) :
    x ∈ s.decoded ↔ 0 ≤ x ∧ x < s.decoded.length := by
  rw [hi.inOrder]
  simp only [List.mem_map, List.mem_range, List.length_map, List.length_range, Int.ofNat_eq_natCast]
  constructor
  · rintro ⟨k, hk, rfl⟩
    omega
  · rintro ⟨h0, hlt⟩
    exact ⟨x.toNat, by omega, by omega⟩

theorem EntryInv.right (hi : EntryInv s) : EntriesRight s where
  inside := by
    have hb := hi.bounded
    obtain h | ⟨h, -⟩ := hi.place
    · by_cases hm : s.decoded.length = 0
      · have hidx : s.entryCuridx = -1 := by omega
        exact Or.inl ⟨hidx, (hi.fresh hidx).1⟩
      · right
        omega
    · right
      omega
  inOrder := hi.inOrder
  bounded := hi.bounded
  noneSkipped k hk := by
    rw [hi.mem_decoded]
    have hplace := hi.place
    omega
  ended h := (hi.ended h).2

/-- What a call answers and where it leaves the index. -/
inductive Asked (outside : Int → Nat) (s : EntryState) : Int → Nat → Prop
  | first (h : s.entryCuridx = -1) (hne : s.entries ≠ []) :
    Asked outside s 0 (s.entryAt outside 0)
  | stays (h : s.entryCuridx ≠ -1) (hlive : s.fnList ≠ []) :
    Asked outside s s.entryCuridx
      (if s.entryCuridx = s.entryCount then 0 else s.entryAt outside s.entryCuridx)
  | moves (h : s.entryCuridx ≠ -1) (hlive : s.fnList = []) :
    Asked outside s (s8 (s.entryCuridx + 1))
      (if s8 (s.entryCuridx + 1) = s.entryCount then 0
        else s.entryAt outside (s8 (s.entryCuridx + 1)))

theorem curEntry_cases (h : curEntry outside s = some (s', sn)) :
    ∃ idx, Asked outside s idx sn ∧ s' = { s with
      entryCuridx := idx
      last := some sn
      exhausted := s.exhausted || idx = s.entryCount } := by
  obtain ⟨⟨t, sn'⟩, hcur, hpair⟩ := Option.map_eq_some_iff.mp h
  obtain ⟨rfl, rfl⟩ := Prod.mk.inj hpair
  unfold sampleStateCurEntry at hcur
  split at hcur
  · rename_i hfirst
    split at hcur
    · cases hcur
    · rename_i hne
      cases hcur
      exact ⟨0, .first hfirst hne, rfl⟩
  rename_i hfirst
  have hmoved : ∀ idx : Int, (if idx = s.entryCount then
      some ({ s.toSampleState with entryCuridx := idx }, 0)
      else some ({ s.toSampleState with entryCuridx := idx }, s.entryAt outside idx)) =
        some (t, sn') →
      t = { s.toSampleState with entryCuridx := idx } ∧
        sn' = if idx = s.entryCount then 0 else s.entryAt outside idx := by
    intro idx hidx
    split at hidx
    · rename_i hend
      cases hidx
      exact ⟨rfl, (if_pos hend).symm⟩
    · rename_i hend
      cases hidx
      exact ⟨rfl, (if_neg hend).symm⟩
  by_cases hlive : s.fnList = []
  · simp only [if_pos hlive] at hcur
    obtain ⟨rfl, rfl⟩ := hmoved _ hcur
    exact ⟨_, .moves hfirst hlive, rfl⟩
  · simp only [if_neg hlive] at hcur
    obtain ⟨rfl, rfl⟩ := hmoved _ hcur
    exact ⟨_, .stays hfirst hlive, rfl⟩

theorem s8_of_small {x : Int} (h0 : 0 ≤ x) (h : x ≤ 127) : s8 x = x := by
  unfold s8
  omega

/-- **What a call does to a state that may be asked.** -/
theorem curEntry_inv (hi : EntryInv s) (hask : MayAsk s) (h : curEntry outside s = some (s', sn)) :
    EntryInv s' ∧ s'.decoded = s.decoded ∧ s'.entries = s.entries ∧ s'.fnList = s.fnList ∧
      0 ≤ s'.entryCuridx ∧ (s'.fnList = [] → s'.entryCuridx = s'.decoded.length) ∧
      (sn ≠ 0 → s'.entryCuridx < s'.entryCount) := by
  obtain ⟨idx, hasked, rfl⟩ := curEntry_cases h
  have hb := hi.bounded
  have hplace := hi.place
  have hnotEnd : s.fnList ≠ [] ∨ s.entryCuridx ∈ s.decoded → s.exhausted = false := by
    intro hor
    by_contra hex
    rw [Bool.not_eq_false] at hex
    have hend := (hi.ended hex).1
    obtain hlive | hmem := hor
    · have hprev : s.entryCuridx = s.decoded.length - 1 := hplace.resolve_right fun h => hlive h.2
      omega
    · have hlt := ((hi.mem_decoded _).mp hmem).2
      omega
  cases hasked with
  | first hfirst hne =>
    obtain ⟨-, hlive, hex⟩ := hi.fresh hfirst
    have hpos : 0 < s.entryCount := List.length_pos_iff.mpr hne
    have hzero : (s.decoded.length : Int) = 0 := by omega
    have hcount : ¬ (0 : Int) = s.entryCount := by omega
    refine ⟨⟨hi.inOrder, hi.bounded, by show (0 : Int) ≤ 127; omega, Or.inr ⟨hzero.symm, hlive⟩,
      fun h => ?_, fun h => ?_⟩, rfl, rfl, rfl, Int.le_refl 0, fun _ => hzero.symm, fun _ => ?_⟩
    · cases h
    · simp only [hex, Bool.false_or, decide_eq_true_eq] at h
      exact absurd h hcount
    · exact Int.natCast_pos.mpr hpos
  | stays hfirst hlive =>
    have hprev : s.entryCuridx = s.decoded.length - 1 := hplace.resolve_right fun h => hlive h.2
    have hex := hnotEnd (Or.inl hlive)
    have hcount : ¬ s.entryCuridx = s.entryCount := by omega
    refine ⟨⟨hi.inOrder, hi.bounded, hi.small, Or.inl hprev, fun h => absurd h hfirst,
      fun h => ?_⟩, rfl, rfl, rfl, ?_, fun h => absurd h hlive, fun _ => ?_⟩
    · simp only [hex, Bool.false_or, decide_eq_true_eq] at h
      exact absurd h hcount
    · show 0 ≤ s.entryCuridx
      omega
    · show s.entryCuridx < s.entryCount
      omega
  | moves hfirst hlive =>
    obtain ⟨hmem, hsmall⟩ : s.entryCuridx ∈ s.decoded ∧ s.entryCuridx ≠ 127 := by
      obtain ⟨h, -⟩ | ⟨-, h⟩ := hask
      · exact absurd h hfirst
      · exact h hlive
    obtain ⟨hnonneg, hlt⟩ := (hi.mem_decoded _).mp hmem
    have hsm := hi.small
    have hnext : s8 (s.entryCuridx + 1) = s.decoded.length := by
      rw [s8_of_small (by omega) (by omega)]
      omega
    have hex := hnotEnd (Or.inr hmem)
    rw [hnext]
    refine ⟨⟨hi.inOrder, hi.bounded, ?_, Or.inr ⟨rfl, hlive⟩, fun h => ?_, fun h => ?_⟩, rfl, rfl,
      rfl, Int.natCast_nonneg _, fun _ => rfl, fun hsn => ?_⟩
    · show (s.decoded.length : Int) ≤ 127
      omega
    · replace h : (s.decoded.length : Int) = -1 := h
      omega
    · simp only [hex, Bool.false_or, decide_eq_true_eq] at h
      exact ⟨h, by rw [if_pos h]⟩
    · show (s.decoded.length : Int) < s.entryCount
      by_contra hge
      exact hsn (if_pos (by omega))

/-- What the law says about the index alone. -/
theorem EntriesRight.not_before {k : Nat} (h : EntriesRight s) (hk : (k : Int) ∉ s.decoded) :
    s.entryCuridx ≤ k := by
  by_contra hlt
  exact hk (h.noneSkipped k (by omega))

theorem EntriesRight.ge (h : EntriesRight s) : -1 ≤ s.entryCuridx := by
  have hin := h.inside
  omega

/-- **A call out of turn is seen.** -/
theorem curEntry_breaks (hi : EntryInv s) (hask : ¬ MayAsk s)
    (h : curEntry outside s = some (s', sn)) :
    s'.fnList = [] ∧ ¬ EntriesRight s' ∧ ∀ frames : List FnList, ¬ EntriesRight { s' with
      fnList := frames
      decoded := s'.decoded ++ [s'.entryCuridx] } := by
  obtain ⟨idx, hasked, rfl⟩ := curEntry_cases h
  have hb := hi.bounded
  have hplace := hi.place
  cases hasked with
  | first hfirst hne => exact absurd (Or.inl ⟨hfirst, hne⟩) hask
  | stays hfirst hlive => exact absurd (Or.inr ⟨hfirst, fun h => absurd h hlive⟩) hask
  | moves hfirst hlive =>
    have hbad : s.entryCuridx ∉ s.decoded ∨ s.entryCuridx = 127 := by
      by_contra hnot
      simp only [not_or, not_not] at hnot
      exact hask (Or.inr ⟨hfirst, fun _ => hnot⟩)
    by_cases htop : s.entryCuridx = 127
    · -- the index becomes negative
      have hneg : s8 (s.entryCuridx + 1) = -128 := by rw [htop]; rfl
      rw [hneg]
      refine ⟨hlive, fun hr => ?_, fun frames hr => ?_⟩
      · have hge : (-1 : Int) ≤ -128 := hr.ge
        omega
      · have hge : (-1 : Int) ≤ -128 := hr.ge
        omega
    · -- the entry that was not decoded is left behind
      have hmem := hbad.resolve_right htop
      rw [hi.mem_decoded] at hmem
      have hidx : s.entryCuridx = s.decoded.length := by omega
      have hsm := hi.small
      have hnext : s8 (s.entryCuridx + 1) = s.decoded.length + 1 := by
        rw [s8_of_small (by omega) (by omega), hidx]
      rw [hnext]
      have hskipped : (s.decoded.length : Int) ∉ s.decoded := by
        rw [hi.mem_decoded]
        omega
      refine ⟨hlive, fun hr => ?_, fun frames hr => ?_⟩
      · have hle := hr.not_before hskipped
        simp only at hle
        omega
      · have hle : (s.decoded.length : Int) + 1 ≤ s.decoded.length := by
          refine hr.not_before fun h => ?_
          obtain h | h := List.mem_append.mp h
          · exact hskipped h
          · have := List.mem_singleton.mp h
            simp only at this
            omega
        omega

/-- A state that may be asked answers. -/
theorem curEntry_isSome (hask : MayAsk s) : (curEntry outside s).isSome := by
  unfold curEntry sampleStateCurEntry
  rw [Option.isSome_map]
  obtain ⟨hfirst, hne⟩ | ⟨hfirst, -⟩ := hask
  · rw [if_pos hfirst, if_neg hne]
    rfl
  · rw [if_neg hfirst]
    simp only
    split <;> split <;> rfl

/-- Decoding what a call has answered. -/
theorem EntryInv.dec (hi : EntryInv s) (hnonneg : 0 ≤ s.entryCuridx)
    (hnext : s.fnList = [] → s.entryCuridx = s.decoded.length)
    (hlt : s.entryCuridx < s.entryCount) (frames : List FnList) :
    EntryInv { s with
      fnList := frames
      decoded := if s.fnList = [] then s.decoded ++ [s.entryCuridx] else s.decoded } := by
  have hnotEnd : ¬ s.exhausted = true := fun hex => by
    have hend := (hi.ended hex).1
    omega
  split
  · rename_i hlive
    have hidx := hnext hlive
    have hlen : (s.decoded ++ [s.entryCuridx]).length = s.decoded.length + 1 :=
      List.length_append
    refine ⟨?_, ?_, hi.small, Or.inl ?_, fun h => ?_, fun hex => absurd hex hnotEnd⟩
    · show s.decoded ++ [s.entryCuridx] = _
      rw [hlen, List.range_succ, List.map_append, ← hi.inOrder, hidx]
      rfl
    · show (s.decoded ++ [s.entryCuridx]).length ≤ s.entryCount
      omega
    · show s.entryCuridx = ((s.decoded ++ [s.entryCuridx]).length : Int) - 1
      omega
    · replace h : s.entryCuridx = -1 := h
      omega
  · rename_i hlive
    refine ⟨hi.inOrder, hi.bounded, hi.small, Or.inl ?_, fun h => ?_,
      fun hex => absurd hex hnotEnd⟩
    · exact hi.place.resolve_right fun h => hlive h.2
    · replace h : s.entryCuridx = -1 := h
      omega

/-! ## The sample set -/

variable {samples samples' : Fin n → EntryState} {done : Bool}

def AllInv (samples : Fin n → EntryState) : Prop := ∀ i, EntryInv (samples i)

theorem AllInv.update (hi : AllInv samples) {i : Fin n} (hs : EntryInv s) :
    AllInv (Function.update samples i s) := by
  intro j
  rw [Function.update_apply]
  split
  · exact hs
  · exact hi j

/-- The loop leaves the states alone that are not in its list. -/
theorem sampleSetDoneLoop_frame {is : List (Fin n)} {i : Fin n} (hi : i ∉ is)
    (h : sampleSetDoneLoop outside is samples = some (samples', done)) :
    samples' i = samples i := by
  induction is generalizing samples with
  | nil =>
    cases h
    rfl
  | cons k is ih =>
    have hik : i ≠ k := fun h => hi (h ▸ List.mem_cons_self)
    unfold sampleSetDoneLoop at h
    split at h
    · cases h
    split at h
    · cases h
      exact Function.update_of_ne hik ..
    · rw [ih (fun h => hi (List.mem_cons_of_mem k h)) h]
      exact Function.update_of_ne hik ..

/-- A check whose calls are in turn keeps every state right. -/
theorem sampleSetDoneLoop_inv {is : List (Fin n)} (hi : AllInv samples)
    (hask : DoneMayAsk outside is samples) :
    ∃ samples' done, sampleSetDoneLoop outside is samples = some (samples', done) ∧
      AllInv samples' := by
  induction is generalizing samples with
  | nil => exact ⟨samples, true, rfl, hi⟩
  | cons i is ih =>
    obtain ⟨hmay, hrest⟩ := hask
    obtain ⟨⟨s, sn⟩, hs⟩ : ∃ r, curEntry outside (samples i) = some r :=
      Option.isSome_iff_exists.mp (curEntry_isSome hmay)
    have hinv := hi.update (i := i) (curEntry_inv (hi i) hmay hs).1
    unfold sampleSetDoneLoop
    simp only [hs]
    by_cases hsn : sn = 0
    · subst hsn
      exact ih hinv (hrest s hs)
    · exact ⟨_, false, if_pos hsn, hinv⟩

/-- A check with a call out of turn leaves a state wrong. -/
theorem sampleSetDoneLoop_breaks {is : List (Fin n)} (hnodup : is.Nodup) (hi : AllInv samples)
    (hask : ¬ DoneMayAsk outside is samples)
    (h : sampleSetDoneLoop outside is samples = some (samples', done)) : ¬ AllRight samples' := by
  induction is generalizing samples with
  | nil => exact absurd trivial hask
  | cons i is ih =>
    obtain ⟨hmem, hnodup⟩ := List.nodup_cons.mp hnodup
    unfold sampleSetDoneLoop at h
    split at h
    · cases h
    rename_i s sn hs
    by_cases hmay : MayAsk (samples i)
    · have hinv := hi.update (i := i) (curEntry_inv (hi i) hmay hs).1
      split at h
      · rename_i hsn
        refine absurd ⟨hmay, fun s' hs' => ?_⟩ hask
        rw [hs] at hs'
        cases hs'
        exact absurd rfl hsn
      · rename_i hsn
        obtain rfl : sn = 0 := by simpa using hsn
        refine ih hnodup hinv (fun hrest => hask ⟨hmay, fun s' hs' => ?_⟩) h
        rw [hs] at hs'
        cases hs'
        exact hrest
    · have hwrong := (curEntry_breaks (hi i) hmay hs).2.1
      intro hall
      apply hwrong
      have hsi : samples' i = s := by
        split at h
        · cases h
          exact Function.update_self ..
        · rw [sampleSetDoneLoop_frame hmem h]
          exact Function.update_self ..
      rw [← hsi]
      exact hall i

/-- **A call in turn keeps every state right.** -/
theorem allInv_step (hi : AllInv samples) {e : EntryEvent n} (hg : AsksWell outside samples e) :
    ∃ samples', entryStep outside samples e = some samples' ∧ AllInv samples' := by
  cases e with
  | decNext idx out =>
    obtain ⟨⟨s, sn⟩, hs⟩ : ∃ r, curEntry outside (samples idx) = some r :=
      Option.isSome_iff_exists.mp (curEntry_isSome hg)
    obtain ⟨hinv, -, -, -, hnonneg, hnext, hlt⟩ := curEntry_inv (hi idx) hg hs
    simp only [entryStep, decNext, hs, Option.map_some]
    split
    · exact ⟨_, rfl, hi.update hinv⟩
    · rename_i hdec
      simp only [not_or] at hdec
      exact ⟨_, rfl, hi.update (hinv.dec hnonneg hnext (hlt hdec.1) out.fnList)⟩
  | sampleSetDone =>
    obtain ⟨samples', done, h, hinv⟩ := sampleSetDoneLoop_inv hi hg
    exact ⟨samples', by simp [entryStep, sampleSetDone, h], hinv⟩

/-- **A call out of turn leaves a state wrong.** -/
theorem entries_break (hi : AllInv samples) {e : EntryEvent n}
    (hng : ¬ AsksWell outside samples e) (h : entryStep outside samples e = some samples') :
    ¬ AllRight samples' := by
  cases e with
  | decNext idx out =>
    obtain ⟨⟨s, sn⟩, hs, rfl⟩ := Option.map_eq_some_iff.mp h
    obtain ⟨hlive, hwrong, hdec⟩ := curEntry_breaks (hi idx) hng hs
    intro hall
    have hidx := hall idx
    simp only at hidx
    split at hidx
    · rw [Function.update_self] at hidx
      exact hwrong hidx
    · rw [Function.update_self] at hidx
      exact hdec out.fnList hidx
  | sampleSetDone =>
    obtain ⟨⟨_, done⟩, hloop, rfl⟩ := Option.map_eq_some_iff.mp h
    exact sampleSetDoneLoop_breaks (List.nodup_finRange n) hi hng hloop

theorem allInv_start (h : SetStart samples) : AllInv samples := by
  intro i
  obtain ⟨hlive, hidx, hdec, hlast, hex⟩ := h i
  have hlen : (samples i).decoded.length = 0 := by rw [hdec]; rfl
  refine ⟨by rw [hdec]; rfl, by omega, by omega, Or.inl (by omega), fun _ => ⟨hlast, hlive, hex⟩,
    fun h => ?_⟩
  rw [hex] at h
  cases h

/-- **Every entry is decoded in order, once, and the end stays the end, exactly when each call of
    `sample_state_cur_entry` comes in turn.** -/
theorem entries_exact (outside : Int → Nat) {samples : Fin n → EntryState}
    (hstart : SetStart samples) (es : List (EntryEvent n)) :
    (Visits (entryStep outside) AllRight samples es ∧
      Along (entryStep outside) (fun samples e => (entryStep outside samples e).isSome)
        samples es) ↔
      Along (entryStep outside) (AsksWell outside) samples es := by
  have hstep : ∀ (samples : Fin n → EntryState) e samples', AllInv samples →
      AsksWell outside samples e → entryStep outside samples e = some samples' →
        AllInv samples' := by
    intro samples e samples' hi hg h
    obtain ⟨samples'', h', hinv⟩ := allInv_step hi hg
    obtain rfl := Option.some.inj (h.symm.trans h')
    exact hinv
  apply visits_along_iff hstep
  · exact fun samples hi i => (hi i).right
  · intro samples e hi hg
    obtain ⟨samples', h, -⟩ := allInv_step hi hg
    rw [h]
    rfl
  · intro samples e hi hng hsome
    obtain ⟨samples', h⟩ := Option.isSome_iff_exists.mp hsome
    exact ⟨samples', h, entries_break hi hng h⟩
  · exact allInv_start hstart

/-- A set of one state with two entries. -/
def twoEntries : Fin 1 → EntryState :=
  fun _ => ⟨⟨[], [], [0x100, 0x200], -1, by decide⟩, [], none, false⟩

/-- `dec_next` pushes a frame, or removes the last one. -/
def decFrames (fnList : List FnList) : EntryEvent 1 := .decNext 0 ⟨true, true, true, fnList⟩

theorem entries_exact_frame :
    (Visits (entryStep fun _ => 0) AllRight twoEntries [decFrames [⟨1, 1⟩], .sampleSetDone] ∧
      Along (entryStep fun _ => 0)
        (fun samples e => (entryStep (fun _ => 0) samples e).isSome) twoEntries
        [decFrames [⟨1, 1⟩], .sampleSetDone]) ↔
      Along (entryStep fun _ => 0) (AsksWell fun _ => 0) twoEntries
        [decFrames [⟨1, 1⟩], .sampleSetDone] :=
  entries_exact (fun _ => 0) (fun _ => ⟨rfl, rfl, rfl, rfl, rfl⟩) _

/-- The check after the first entry moves to the second one, and the next `dec_next` past it. -/
theorem done_check_skips_entry :
    ¬ Visits (entryStep fun _ => 0) AllRight twoEntries
      [decFrames [⟨1, 1⟩], .sampleSetDone, decFrames [], .sampleSetDone, decFrames [⟨2, 1⟩]] := by
  intro hv
  have hright := visits_iff_exec.mp hv _ [] _ (List.append_nil _).symm rfl 0
  have hmem := hright.noneSkipped 1 (by decide)
  exact absurd hmem (by decide)

end Srcinv.Analysis
