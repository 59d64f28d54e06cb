import Srcinv.Analysis.Globals
import Srcinv.Analysis.ObjScan
import Srcinv.Collect.HeapWalk

/-!
# `MODE_ADJUST` (`c_parse`, `analysis/gcc/c.cc`)

The payload of a record holds copies of the compiler's objects, whose pointers are still those of
the compiler.  `MODE_ADJUST` walks the copies from the first one on, replaces each pointer by the
new address of its object and each `location_t` by the offset of its location, and then settles the
GCC globals.

* `adjust_slots` — the walk over the copies repeats that of the collector.
* `adjust_isomorphic` — **the copies are linked as the objects were**, and no `BUG_ON` stops the
  phase on the way.
-/

namespace Srcinv.Analysis

open Srcinv.Lib Srcinv.Collect

/-! ## The code -/

/-- `is_location`. -/
def isLocation (fakeAddr : Nat) : Bool := LOCATION_MIN ≤ fakeAddr

/-- The globals of the thread, and the payload: the copy at each address. -/
structure AdjustState where
  table : AdjustTable
  mem : Nat → Cell

/-- A slot of the copy at `addr` is written. -/
def AdjustState.setSlot (s : AdjustState) (addr j : Nat) (v : Slot) : AdjustState :=
  { s with mem := fun a =>
      if a = addr then { s.mem a with slots := (s.mem a).slots.set j v } else s.mem a }

/-- `my_expand_location`: the entry that it takes.  `none` is its `BUG_ON`, or a read past the
    table. -/
def AdjustTable.myExpandLocation (t : AdjustTable) : Option (Nat × AdjustTable) :=
  match scanFrom (fun i => (t.objs[i]?).any fun o => !o.isAdjusted) t.objIdx t.objs.length with
  | none => none
  | some i =>
    if (t.objs[i]?).any fun o => isLocation o.fakeAddr then
      some (i, { t with objIdx := i }.setAdjusted i)
    else none

/-- `do_real_addr`: the slot gets the new address, and `next` is called for a copy that is not
    adjusted. -/
def doRealAddr (next : Nat → AdjustState → Option AdjustState) (addr j fakeAddr : Nat)
    (s : AdjustState) : Option AdjustState :=
  let r := s.table.getRealAddr fakeAddr true
  let s := s.setSlot addr j (.ptr r.1)
  if r.2 then next r.1 s else some s

/-- What the `do_` functions do at slot `j` of the copy at `addr`: `do_real_addr`, or
    `do_location`. -/
def doSlot (next : Nat → AdjustState → Option AdjustState) (addr j : Nat) (s : AdjustState) :
    Option AdjustState :=
  match (s.mem addr).slots[j]? with
  | none => none
  | some (.ptr fakeAddr) => doRealAddr next addr j fakeAddr s
  | some (.loc _) =>
    match s.table.myExpandLocation with
    | none => none
    | some (i, t) =>
      match t.objs[i]? with
      | none => none
      | some o =>
        let s := ({ s with table := t } : AdjustState).setSlot addr j (.loc o.offs)
        match (s.mem o.realAddr).slots.head? with
        | some (.ptr file) => doRealAddr next o.realAddr 0 file s
        | _ => none

/-- A `do_` function, for the copy at `addr`; `bug` is for the bytes of an object that a check of it
    fails for.  Each call below another one has taken an entry. -/
def adjustNode (bug : List UInt8 → Bool) : Nat → Nat → AdjustState → Option AdjustState
  | 0, _, _ => none
  | room + 1, addr, s =>
    if addr = 0 then some s
    else if bug (s.mem addr).rest then none
    else
      match s.table.isObjCheckedAdjust addr true with
      | none => none
      | some (true, t) => some { s with table := t }
      | some (false, t) =>
        (List.range' 0 (s.mem addr).slots.length).foldlM
          (fun s j => doSlot (adjustNode bug room) addr j s) { s with table := t }

/-- The address of a global is settled, and the entry counts as adjusted. -/
def AdjustTable.settle (t : AdjustTable) (i realAddr : Nat) : AdjustTable :=
  t.adjustEntry i (fun o => { o with realAddr := realAddr, isAdjusted := true }) fun _ => rfl

/-- The body of the loop of `do_gcc_global_var_adjust`. -/
def adjustGlobalVar (bug : List UInt8 → Bool) (room i : Nat) (s : AdjustState) :
    Option AdjustState :=
  match s.table.objs[i]? with
  | none => none
  | some o =>
    if o.gccGlobalVaridx = 0 then some s
    else if o.fakeAddr = 0 then
      some { s with table := s.table.settle i 0 }
    else if o.size = 0 then (s.table.adjustShared i).map fun t => { s with table := t }
    else
      (adjustNode bug room o.realAddr s).bind fun s' =>
        if s.table.objAdjusted ≥ s'.table.objAdjusted then none else some s'

/-- `c_parse` in `MODE_ADJUST`, for the table and the payload of a sibuf.  `THREAD_STACKSZ` is set
    when the program is built. -/
def cParseAdjust (threadStackSz : Nat) (bug : List UInt8 → Bool) (objs : List FileObj)
    (mem : Nat → Cell) : Option AdjustState :=
  let s : AdjustState := ⟨adjustStart objs, mem⟩
  match s.table.objs[0]? with
  | none => some s
  | some first =>
    if objs.length * 8 * 2 ≥ threadStackSz then none
    else
      (adjustNode bug (objs.length + 1) first.realAddr s).bind fun s =>
        ((List.range' 0 objs.length).foldlM
          (fun s i => adjustGlobalVar bug (objs.length + 1) i s) s).bind fun s =>
            if s.table.objAdjusted ≠ objs.length then none else some s

/-! ## The table that the phase starts with -/

/-- The address and the offset of the copy for an entry. -/
def realAt (T : AdjustTable) (i : Nat) : Nat := ((T.objs[i]?).map fun o => o.realAddr).getD 0

def offsAt (T : AdjustTable) (i : Nat) : Nat := ((T.objs[i]?).map fun o => o.offs).getD 0

/-- A table that has the nodes `node`: the entries with a node have an address of their own. -/
structure Prepared (node : Nat → Option Node) (T : AdjustTable) : Prop where
  fresh : ∀ (i : Nat) (o : AdjustObj), T.objs[i]? = some o → o.isAdjusted = false
  real : T.realAddrs = T.objs.map fun o => o.realAddr
  shared : ∀ {i a}, node i = some (.shared a) → a ≠ 0 ∧ a < LOCATION_MIN ∧
    ∃ o, T.objs[i]? = some o ∧ o.realAddr ≠ 0 ∧ o.fakeAddr = a
  own : ∀ {i x}, node i = some (.own x) →
    ∃ o, T.objs[i]? = some o ∧ o.realAddr ≠ 0 ∧ LOCATION_MIN ≤ o.fakeAddr
  bare : ∀ {i o}, T.objs[i]? = some o → node i = none → o.realAddr = 0 ∧
    (o.fakeAddr = 0 ∨ ∃ j < i, node j = some (.shared o.fakeAddr))
  apart : ∀ {i j}, node i ≠ none → node j ≠ none → realAt T i = realAt T j → i = j
  once : Listing.Once node

/-- The globals among the entries, and which entries have bytes. -/
structure GlobalsTagged (node : Nat → Option Node) (tag : Nat → Nat) (T : AdjustTable) : Prop where
  tag : ∀ {i o}, T.objs[i]? = some o → o.gccGlobalVaridx = tag i
  size : ∀ {i o}, T.objs[i]? = some o → (o.size = 0 ↔ node i = none)

/-- What an entry becomes. -/
def adjusted (T : AdjustTable) (o : AdjustObj) : AdjustObj :=
  { o with
    realAddr := if o.realAddr ≠ 0 then o.realAddr else (T.getRealAddr o.fakeAddr false).1
    isAdjusted := true }

/-- **The table while the first `k` entries are adjusted**: exactly those. -/
structure Adjusting (T : AdjustTable) (k : Nat) (t : AdjustTable) : Prop where
  objs : ∀ i : Nat, t.objs[i]? = (T.objs[i]?).map fun o => if i < k then adjusted T o else o
  real : t.realAddrs = T.realAddrs
  idx : t.objIdx ≤ k
  count : t.objAdjusted = k

section Table

variable {node : Nat → Option Node} {T t : AdjustTable} {i k p a : Nat} {n : Node}

theorem Prepared.entry (P : Prepared node T) (hn : node i = some n) :
    ∃ o, T.objs[i]? = some o ∧ o.realAddr ≠ 0 ∧ realAt T i = o.realAddr ∧ offsAt T i = o.offs := by
  have hentry : ∃ o, T.objs[i]? = some o ∧ o.realAddr ≠ 0 := by
    cases n with
    | shared a =>
      obtain ⟨-, -, o, ho, hreal, -⟩ := P.shared hn
      exact ⟨o, ho, hreal⟩
    | own x =>
      obtain ⟨o, ho, hreal, -⟩ := P.own hn
      exact ⟨o, ho, hreal⟩
  obtain ⟨o, ho, hreal⟩ := hentry
  exact ⟨o, ho, hreal, by rw [realAt, ho]; rfl, by rw [offsAt, ho]; rfl⟩

theorem Prepared.lt (P : Prepared node T) (hn : node i = some n) : i < T.objs.length := by
  obtain ⟨o, ho, -⟩ := P.entry hn
  exact (List.getElem?_eq_some_iff.mp ho).1

theorem Prepared.realAt_ne (P : Prepared node T) (hn : node i = some n) : realAt T i ≠ 0 := by
  obtain ⟨o, -, hne, heq, -⟩ := P.entry hn
  rwa [heq]

theorem Adjusting.length (A : Adjusting T k t) : t.objs.length = T.objs.length := by
  refine Nat.le_antisymm ?_ ?_
  · refine Nat.le_of_not_lt fun hlt => ?_
    have h := A.objs T.objs.length
    rw [List.getElem?_eq_getElem hlt, List.getElem?_eq_none (Nat.le_refl _)] at h
    cases h
  · refine Nat.le_of_not_lt fun hlt => ?_
    have h := A.objs t.objs.length
    rw [List.getElem?_eq_none (Nat.le_refl _), List.getElem?_eq_getElem hlt] at h
    cases h

theorem Adjusting.start (hidx : T.objIdx = 0) (hcount : T.objAdjusted = 0) :
    Adjusting T 0 T where
  objs i := by simp
  real := rfl
  idx := Nat.le_of_eq hidx
  count := hcount

/-- An entry of the table while it is adjusted. -/
theorem Adjusting.entry_cases (A : Adjusting T k t) {o : AdjustObj} (ho : t.objs[i]? = some o) :
    ∃ o', T.objs[i]? = some o' ∧ o = if i < k then adjusted T o' else o' := by
  rw [A.objs i] at ho
  obtain ⟨o', ho', rfl⟩ := Option.map_eq_some_iff.mp ho
  exact ⟨o', ho', rfl⟩

/-- The entry of an object. -/
theorem Adjusting.entry (P : Prepared node T) (A : Adjusting T k t) (hn : node i = some n) :
    ∃ o, t.objs[i]? = some o ∧ o.realAddr = realAt T i ∧ o.offs = offsAt T i ∧
      o.isAdjusted = decide (i < k) ∧ o.realAddr ≠ 0 ∧
      ∃ o', T.objs[i]? = some o' ∧ o.fakeAddr = o'.fakeAddr := by
  obtain ⟨o, ho, hne, hreal, hoffs⟩ := P.entry hn
  refine ⟨if i < k then adjusted T o else o, by rw [A.objs i, ho]; rfl, ?_⟩
  split
  · rename_i hlt
    simp only [adjusted, if_pos hne, hreal, hoffs, hlt, decide_true, true_and]
    exact ⟨hne, o, ho, rfl⟩
  · rename_i hge
    rw [hreal, hoffs, P.fresh i o ho]
    exact ⟨rfl, rfl, (decide_eq_false hge).symm, hne, o, ho, rfl⟩

/-! ## Lookups -/

/-- What a lookup stops at has the object, or is a global that shares it. -/
theorem Adjusting.objOf_cases (P : Prepared node T) (A : Adjusting T k t) {reverse : Bool}
    (hp : node p = some (.shared a)) (ho : t.objOf a reverse = some i) :
    i = p ∨ (p < i ∧ i < k ∧ ∃ o, t.objs[i]? = some o ∧ o.isAdjusted = true ∧
      o.realAddr = (T.getRealAddr a false).1) := by
  obtain ⟨ha, hlt, -⟩ := P.shared hp
  obtain ⟨o, hi, hfake, hreal⟩ := AdjustTable.objOf_some ho
  obtain ⟨o', hi', rfl⟩ := A.entry_cases hi
  have hfake' : o'.fakeAddr = a := by
    rw [← hfake]
    split <;> rfl
  cases hn : node i with
  | some n =>
    left
    cases n with
    | shared b =>
      obtain ⟨-, -, o'', ho'', -, hb⟩ := P.shared hn
      rw [hi'] at ho''
      cases ho''
      rw [hfake'] at hb
      exact P.once a i p (hb ▸ hn) hp
    | own x =>
      obtain ⟨o'', ho'', -, hb⟩ := P.own hn
      rw [hi'] at ho''
      cases ho''
      omega
  | none =>
    right
    obtain ⟨hzero, hshare⟩ := P.bare hi' hn
    rw [hfake'] at hshare
    obtain ⟨j, hj, hnode⟩ := hshare.resolve_left ha
    have hpi : p < i := P.once a j p hnode hp ▸ hj
    split at hreal
    · rename_i hik
      refine ⟨hpi, hik, _, hi, ?_⟩
      rw [if_pos hik]
      refine ⟨rfl, ?_⟩
      unfold adjusted
      rw [if_neg (not_not.mpr hzero), hfake']
    · exact absurd hzero hreal

theorem AdjustTable.objOf_none {reverse : Bool} {o : AdjustObj}
    (h : t.objOf a reverse = none) (ho : t.objs[i]? = some o) (hfake : o.fakeAddr = a) :
    o.realAddr = 0 := by
  obtain ⟨hi, rfl⟩ := List.getElem?_eq_some_iff.mp ho
  by_contra hne
  have hno := scan_none.mp h i hi
  rw [(AdjustTable.objOf_matches hi).mpr ⟨hfake, hne⟩] at hno
  cases hno

/-- A lookup before anything is adjusted. -/
theorem Prepared.getRealAddr (P : Prepared node T) (hp : node p = some (.shared a))
    (reverse : Bool) : T.getRealAddr a reverse = (realAt T p, true) := by
  obtain ⟨ha, -, o, ho, hne, hfake⟩ := P.shared hp
  obtain ⟨o', ho', -, hreal, -⟩ := P.entry hp
  rw [ho] at ho'
  cases ho'
  have A : Adjusting T 0 { T with objIdx := 0, objAdjusted := 0 } := ⟨fun i => by simp, rfl,
    Nat.le_refl 0, rfl⟩
  unfold AdjustTable.getRealAddr
  rw [if_neg ha]
  cases hfound : T.objOf a reverse with
  | none => exact absurd (AdjustTable.objOf_none hfound ho hfake) hne
  | some i =>
    rcases A.objOf_cases P hp hfound with rfl | ⟨-, hlt, -⟩
    · simp only [Option.bind_some, ho, hreal, P.fresh i o ho, Bool.not_false]
    · exact absurd hlt (Nat.not_lt_zero i)

/-- **What a lookup finds**: the copy of the object, to be adjusted unless it is. -/
theorem Adjusting.getRealAddr (P : Prepared node T) (A : Adjusting T k t)
    (hp : node p = some (.shared a)) (reverse : Bool) :
    t.getRealAddr a reverse = (realAt T p, !decide (p < k)) := by
  obtain ⟨ha, -, o, ho, hne, hfake⟩ := P.shared hp
  obtain ⟨o₁, ho₁, hreal, -, hadj, hne₁, o₂, ho₂, hfake₁⟩ := A.entry P hp
  rw [ho] at ho₂
  cases ho₂
  unfold AdjustTable.getRealAddr
  rw [if_neg ha]
  cases hfound : t.objOf a reverse with
  | none => exact absurd (AdjustTable.objOf_none hfound ho₁ (hfake₁.trans hfake)) hne₁
  | some i =>
    rcases A.objOf_cases P hp hfound with rfl | ⟨hpi, hik, o₃, ho₃, hadj₃, hreal₃⟩
    · simp only [Option.bind_some, ho₁, hreal, hadj]
    · have hpk : p < k := Nat.lt_trans hpi hik
      simp only [Option.bind_some, ho₃, hreal₃, hadj₃, P.getRealAddr hp false, hpk, decide_true]

/-- An entry with a node is adjusted. -/
theorem Adjusting.take (P : Prepared node T) (A : Adjusting T k t) (hn : node k = some n) :
    Adjusting T (k + 1) (({ t with objIdx := k } : AdjustTable).setAdjusted k) where
  objs i := by
    obtain ⟨o, ho, hne, -⟩ := P.entry hn
    simp only [AdjustTable.setAdjusted, AdjustTable.adjustEntry, List.getElem?_modify, A.objs i]
    by_cases hik : k = i
    · subst hik
      simp only [ho, Option.map_some, Option.map_eq_map, if_pos, Nat.lt_irrefl, if_false,
        Nat.lt_succ_self, adjusted, hne, ne_eq, not_false_eq_true]
    · have hiff : i < k ↔ i < k + 1 := by omega
      simp only [Option.map_eq_map, Option.map_map, Function.comp_def, if_neg hik, hiff]
  real := A.real
  idx := Nat.le_succ k
  count := by
    simp only [AdjustTable.setAdjusted, AdjustTable.adjustEntry, A.count]

/-- **The copy at the address of the next entry is taken.** -/
theorem Adjusting.isObjChecked (P : Prepared node T) (A : Adjusting T k t)
    (hn : node k = some n) :
    ∃ t', t.isObjCheckedAdjust (realAt T k) true = some (false, t') ∧ Adjusting T (k + 1) t' := by
  obtain ⟨o, ho, hreal, -, hadj, -⟩ := A.entry P hn
  have hk : k < t.objs.length := (List.getElem?_eq_some_iff.mp ho).1
  have hat : ∀ i : Nat, t.realAddrs[i]? = (T.objs[i]?).map fun o : AdjustObj => o.realAddr :=
    fun i => by rw [A.real, P.real, List.getElem?_map]
  unfold AdjustTable.isObjCheckedAdjust
  cases hfound : scan (fun i => t.realAddrs[i]? == some (realAt T k)) t.objs.length true with
  | none =>
    have hno := scan_none.mp hfound k hk
    obtain ⟨o', ho', -, hreal', -⟩ := P.entry hn
    simp [hat, ho', hreal'] at hno
  | some i =>
    obtain ⟨hp, hi⟩ := scan_some hfound
    -- only entries with a node have an address
    have hik : i = k := by
      simp only [hat, beq_iff_eq] at hp
      obtain ⟨o', ho', heq⟩ := Option.map_eq_some_iff.mp hp
      refine P.apart (fun hnone => ?_) (by rw [hn]; exact Option.some_ne_none n) ?_
      · exact P.realAt_ne hn (heq ▸ (P.bare ho' hnone).1)
      · rw [realAt, ho']
        exact heq
    subst hik
    have hnot : ((t.objs[i]?).any fun o => o.isAdjusted) = false := by
      rw [ho, Option.any_some, hadj]
      exact decide_eq_false (Nat.lt_irrefl i)
    exact ⟨_, by simp only [hnot]; rfl, A.take P hn⟩

/-- A scan stops at the first match. -/
theorem scanFrom_first {p : Nat → Bool} {start stop : Nat} (h : scanFrom p start stop = some i) :
    ∀ j, start ≤ j → j < i → p j = false := by
  unfold scanFrom at h
  rw [List.find?_range'_eq_some] at h
  intro j hlo hhi
  simpa using h.2.2 j hlo hhi

/-- **The next entry is taken for a location.** -/
theorem Adjusting.myExpandLocation (P : Prepared node T) (A : Adjusting T k t)
    {xloc : ExpandedLocation} (hn : node k = some (.own xloc)) :
    ∃ t', t.myExpandLocation = some (k, t') ∧ Adjusting T (k + 1) t' := by
  obtain ⟨o, ho, -, -, hadj, -, o', ho', hfake⟩ := A.entry P hn
  have hk : k < t.objs.length := (List.getElem?_eq_some_iff.mp ho).1
  have hloc : LOCATION_MIN ≤ o'.fakeAddr := by
    obtain ⟨o'', ho'', -, hge⟩ := P.own hn
    rw [ho'] at ho''
    cases ho''
    exact hge
  have hidx := A.idx
  unfold AdjustTable.myExpandLocation
  cases hfound : scanFrom (fun i => (t.objs[i]?).any fun o => !o.isAdjusted) t.objIdx
      t.objs.length with
  | none =>
    have hno := scanFrom_none.mp hfound k hidx hk
    simp [ho, hadj] at hno
  | some i =>
    -- the entries before are adjusted, and those of the scan are not
    obtain ⟨hp, -, hi⟩ := scanFrom_some hfound
    have hik : i = k := by
      rcases Nat.lt_trichotomy i k with hlt | heq | hgt
      · obtain ⟨o₁, ho₁, heq⟩ := A.entry_cases (List.getElem?_eq_getElem hi)
        simp [List.getElem?_eq_getElem hi, heq, hlt, adjusted] at hp
      · exact heq
      · have hno := scanFrom_first hfound k hidx hgt
        simp [ho, hadj] at hno
    subst hik
    have hany : ((t.objs[i]?).any fun o => isLocation o.fakeAddr) = true := by
      rw [ho, Option.any_some, hfake]
      exact decide_eq_true hloc
    exact ⟨_, by simp only [hany, if_true], A.take P hn⟩

/-- A global without bytes is settled. -/
theorem Adjusting.settle (P : Prepared node T) (A : Adjusting T k t) (hn : node k = none)
    {o : AdjustObj} (ho : T.objs[k]? = some o) :
    Adjusting T (k + 1) (t.settle k (T.getRealAddr o.fakeAddr false).1) where
  objs i := by
    have hzero := (P.bare ho hn).1
    simp only [AdjustTable.settle, AdjustTable.adjustEntry, List.getElem?_modify, A.objs i]
    by_cases hik : k = i
    · subst hik
      simp only [ho, Option.map_some, Option.map_eq_map, if_pos, Nat.lt_irrefl, if_false,
        Nat.lt_succ_self, adjusted, hzero, ne_eq, not_true_eq_false]
    · have hiff : i < k ↔ i < k + 1 := by omega
      simp only [Option.map_eq_map, Option.map_map, Function.comp_def, if_neg hik, hiff]
  real := A.real
  idx := Nat.le_succ_of_le A.idx
  count := by
    simp only [AdjustTable.settle, AdjustTable.adjustEntry, A.count]

/-- A global that has an entry already gets the address of that one. -/
theorem Adjusting.adjustShared (P : Prepared node T) (A : Adjusting T k t) (hn : node k = none)
    {o : AdjustObj} (ho : T.objs[k]? = some o) (hne : o.fakeAddr ≠ 0) :
    t.adjustShared k = some (t.settle k (T.getRealAddr o.fakeAddr false).1) := by
  obtain ⟨-, hshare⟩ := P.bare ho hn
  obtain ⟨j, -, hj⟩ := hshare.resolve_left hne
  have hk : t.objs[k]? = some o := by
    rw [A.objs k, ho]
    simp only [Option.map_some, Nat.lt_irrefl, if_false]
  have hget := A.getRealAddr P hj false
  have hget' := P.getRealAddr hj false
  unfold AdjustTable.adjustShared
  simp only [hk, hget, hget', if_neg (P.realAt_ne hj)]
  rfl

end Table

/-! ## The payload -/

/-- What a slot becomes, from the entry of what it leads to. -/
def relocate (T : AdjustTable) : Slot → Option Nat → Slot
  | .ptr _, none => .ptr 0
  | .ptr _, some p => .ptr (realAt T p)
  | .loc _, some p => .loc (offsAt T p)
  | .loc line, none => .loc line

section Walk

variable (bug : List UInt8 → Bool) (h : GccHeap) (node : Nat → Option Node) (T : AdjustTable)

/-- No check fails for a node of the table. -/
def Passes : Prop := ∀ i n, node i = some n → bug (h.content n).rest = false

/-- The copy for entry `i` is adjusted. -/
def Relocated (mem : Nat → Cell) (i : Nat) : Prop :=
  ∀ n, node i = some n → ∃ qs, Listing.Out h.below 0 node i qs ∧
    mem (realAt T i) = ⟨List.zipWith (relocate T) (h.content n).slots qs, (h.content n).rest⟩

/-- The copies from entry `k` on are as they were collected. -/
def Untouched (mem : Nat → Cell) (k : Nat) : Prop :=
  ∀ i n, k ≤ i → node i = some n → mem (realAt T i) = h.content n

/-- Nothing has changed outside the copies for the entries from `k` on and before `k'`. -/
def SameOutside (k k' : Nat) (mem mem' : Nat → Cell) : Prop :=
  ∀ a, (∀ i, k ≤ i → i < k' → node i ≠ none → a ≠ realAt T i) → mem' a = mem a

/-- **The walk has adjusted the entries from `k` on and before `k'`.** -/
structure Adjusts (k k' : Nat) (s s' : AdjustState) : Prop where
  table : Adjusting T k' s'.table
  done : ∀ i, k ≤ i → i < k' → Relocated h node T s'.mem i
  frame : SameOutside node T k k' s.mem s'.mem

/-- The walk has gone through the slots from `j` on of the copy for entry `q`. -/
structure AdjustsSlots (k k' q j : Nat) (vs : List Slot) (s s' : AdjustState) : Prop where
  table : Adjusting T k' s'.table
  own : s'.mem (realAt T q) =
    ⟨(s.mem (realAt T q)).slots.take j ++ vs, (s.mem (realAt T q)).rest⟩
  done : ∀ i, k ≤ i → i < k' → Relocated h node T s'.mem i
  frame : ∀ a, a ≠ realAt T q → (∀ i, k ≤ i → i < k' → node i ≠ none → a ≠ realAt T i) →
    s'.mem a = s.mem a

/-- One slot was written, and what it leads to adjusted. -/
structure AdjustsSlot (k k' q j : Nat) (v : Slot) (s s' : AdjustState) : Prop where
  table : Adjusting T k' s'.table
  own : s'.mem (realAt T q) =
    ⟨(s.mem (realAt T q)).slots.set j v, (s.mem (realAt T q)).rest⟩
  done : ∀ i, k ≤ i → i < k' → Relocated h node T s'.mem i
  frame : ∀ a, a ≠ realAt T q → (∀ i, k ≤ i → i < k' → node i ≠ none → a ≠ realAt T i) →
    s'.mem a = s.mem a

variable {bug h node T} {k k₁ k' q j : Nat} {s s₁ s' : AdjustState} {v : Slot} {vs : List Slot}

theorem AdjustState.setSlot_same (s : AdjustState) (addr j : Nat) (v : Slot) :
    (s.setSlot addr j v).mem addr = ⟨(s.mem addr).slots.set j v, (s.mem addr).rest⟩ :=
  if_pos rfl

theorem AdjustState.setSlot_other {a addr : Nat} (hne : a ≠ addr) (s : AdjustState) (j : Nat)
    (v : Slot) : (s.setSlot addr j v).mem a = s.mem a := if_neg hne

/-- Two entries with nodes have different addresses. -/
theorem Prepared.realAt_ne_of_lt (P : Prepared node T) (hi : node i ≠ none) (hq : node q ≠ none)
    (hlt : q < i) : realAt T i ≠ realAt T q := fun heq =>
  Nat.ne_of_gt hlt (P.apart hi hq heq)

theorem Untouched.mono {mem : Nat → Cell} (hle : k ≤ k') (hu : Untouched h node T mem k) :
    Untouched h node T mem k' := fun i n hi => hu i n (Nat.le_trans hle hi)

/-- Writing a slot of an earlier copy leaves the later ones alone. -/
theorem Untouched.setSlot (P : Prepared node T) (hu : Untouched h node T s.mem k) (hq : q < k)
    (hnq : node q ≠ none) : Untouched h node T (s.setSlot (realAt T q) j v).mem k := by
  intro i n hi hn
  have hne := P.realAt_ne_of_lt (by rw [hn]; exact Option.some_ne_none n) hnq
    (Nat.lt_of_lt_of_le hq hi)
  rw [AdjustState.setSlot_other hne, hu i n hi hn]

namespace AdjustsSlot

/-- The slot leads to nothing new. -/
theorem old (htable : Adjusting T k s.table) :
    AdjustsSlot h node T k k q j v s (s.setSlot (realAt T q) j v) where
  table := htable
  own := AdjustState.setSlot_same ..
  done _ hlo hhi := absurd hhi (Nat.not_lt.mpr hlo)
  frame _ hne _ := AdjustState.setSlot_other hne ..

/-- The slot leads to a copy that was adjusted next. -/
theorem new (P : Prepared node T) (hq : q < k) (hnq : node q ≠ none)
    (hsub : Adjusts h node T k k' (s.setSlot (realAt T q) j v) s') :
    AdjustsSlot h node T k k' q j v s s' where
  table := hsub.table
  own := by
    rw [hsub.frame _ fun i hlo _ hn =>
      (P.realAt_ne_of_lt hn hnq (Nat.lt_of_lt_of_le hq hlo)).symm, AdjustState.setSlot_same]
  done := hsub.done
  frame a hne hout := by rw [hsub.frame a hout, AdjustState.setSlot_other hne]

/-- The copies behind those that were adjusted are as they were. -/
theorem untouched (P : Prepared node T) (hq : q < k) (hnq : node q ≠ none) (hle : k ≤ k')
    (hs : AdjustsSlot h node T k k' q j v s s') (hu : Untouched h node T s.mem k) :
    Untouched h node T s'.mem k' := by
  intro i n hi hn
  have hni : node i ≠ none := by rw [hn]; exact Option.some_ne_none n
  rw [hs.frame _ (P.realAt_ne_of_lt hni hnq (by omega)) fun p hp hp' hnp =>
    P.realAt_ne_of_lt hni hnp (by omega)]
  exact hu i n (by omega) hn

/-- One slot after the other. -/
theorem cons (P : Prepared node T) (hq : q < k) (hnq : node q ≠ none) (hle : k ≤ k₁)
    (hj : j < (s.mem (realAt T q)).slots.length) (hs : AdjustsSlot h node T k k₁ q j v s s₁)
    (hle' : k₁ ≤ k') (hrest : AdjustsSlots h node T k₁ k' q (j + 1) vs s₁ s') :
    AdjustsSlots h node T k k' q j (v :: vs) s s' where
  table := hrest.table
  own := by
    have htake : ((s.mem (realAt T q)).slots.set j v).take (j + 1) =
        (s.mem (realAt T q)).slots.take j ++ [v] := by
      rw [List.take_add_one, List.take_set_of_le (Nat.le_refl j), List.getElem?_set_self hj]
      rfl
    rw [hrest.own, hs.own]
    simp only [htake, List.append_assoc, List.singleton_append]
  done i hlo hhi := by
    rcases Nat.lt_or_ge i k₁ with hlt | hge
    · intro n hn
      obtain ⟨qs, hout, hmem⟩ := hs.done i hlo hlt n hn
      have hni : node i ≠ none := by rw [hn]; exact Option.some_ne_none n
      refine ⟨qs, hout, ?_⟩
      rw [hrest.frame _ (P.realAt_ne_of_lt hni hnq (by omega)) fun p hp _ hnp =>
        (P.realAt_ne_of_lt hnp hni (by omega)).symm, hmem]
    · exact hrest.done i hge hhi
  frame a hne hout := by
    rw [hrest.frame a hne fun i hlo hhi => hout i (by omega) hhi,
      hs.frame a hne fun i hlo hhi => hout i hlo (by omega)]

end AdjustsSlot

/-- The copy for entry `k`, once its slots are gone through. -/
theorem AdjustsSlots.adjusts {n : Node} {qs : List (Option Nat)} (hn : node k = some n)
    (sub : Listing h.below 0 node (k + 1) (h.below n) qs k₁)
    (hmem : s.mem (realAt T k) = h.content n)
    (hs : AdjustsSlots h node T (k + 1) k₁ k 0
      (List.zipWith (relocate T) (h.content n).slots qs) s s') :
    Adjusts h node T k k₁ s s' where
  table := hs.table
  done i hlo hhi := by
    rcases Nat.eq_or_lt_of_le hlo with rfl | hlt
    · intro n' hn'
      rw [hn] at hn'
      cases hn'
      refine ⟨qs, ⟨n, k₁, hn, sub⟩, ?_⟩
      rw [hs.own, hmem, List.take_zero, List.nil_append]
    · exact hs.done i hlt hhi
  frame a hout := by
    have hle := sub.le
    exact hs.frame a (hout k (Nat.le_refl k) (by omega) (by rw [hn]; exact Option.some_ne_none n))
      fun i hlo hhi => hout i (by omega) hhi

/-- What the walk does from place `k` on through `ls`. -/
def SlotsAdjust (bug : List UInt8 → Bool) (h : GccHeap) (node : Nat → Option Node)
    (T : AdjustTable) (k : Nat) (ls : List Node) (ps : List (Option Nat)) (k' : Nat) : Prop :=
  ∀ (room q j : Nat) (ss : List Slot) (s : AdjustState), T.objs.length < room + k →
    ss.map h.link = ls → (s.mem (realAt T q)).slots.drop j = ss → q < k → node q ≠ none →
    Adjusting T k s.table → Untouched h node T s.mem k →
    ∃ s', (List.range' j ss.length).foldlM
        (fun s j => doSlot (adjustNode bug room) (realAt T q) j s) s = some s' ∧
      AdjustsSlots h node T k k' q j (List.zipWith (relocate T) ss ps) s s'

/-- **A copy that is not adjusted is entered.** -/
theorem adjustNode_enter (P : Prepared node T) (hb : Passes bug h node) {n : Node}
    {qs : List (Option Nat)} {room : Nat}
    (hn : node k = some n) (sub : Listing h.below 0 node (k + 1) (h.below n) qs k₁)
    (hsub : SlotsAdjust bug h node T (k + 1) (h.below n) qs k₁) (hroom : T.objs.length < room + k)
    (htable : Adjusting T k s.table) (hmem : Untouched h node T s.mem k) :
    ∃ s', adjustNode bug room (realAt T k) s = some s' ∧ Adjusts h node T k k₁ s s' := by
  have hk := P.lt hn
  cases room with
  | zero => omega
  | succ room =>
    obtain ⟨t, hchecked, htable'⟩ := htable.isObjChecked P hn
    have hcontent := hmem k n (Nat.le_refl k) hn
    obtain ⟨s', hrun, hs'⟩ := hsub room k 0 (h.content n).slots ⟨t, s.mem⟩ (by omega) rfl
      (by simp only [hcontent, List.drop_zero]) (Nat.lt_succ_self k)
      (by rw [hn]; exact Option.some_ne_none n) htable'
      (hmem.mono (Nat.le_succ k))
    have hadj : Adjusts h node T k k₁ ⟨t, s.mem⟩ s' := AdjustsSlots.adjusts hn sub hcontent hs'
    refine ⟨s', ?_, hadj.table, hadj.done, hadj.frame⟩
    unfold adjustNode
    simp only [if_neg (P.realAt_ne hn), hcontent, hb k n hn, Bool.false_eq_true, if_false, hchecked]
    exact hrun

theorem drop_eq_cons {α : Type*} {l : List α} {x : α} {xs : List α} (hd : l.drop j = x :: xs) :
    j < l.length ∧ l[j]? = some x ∧ l.drop (j + 1) = xs := by
  have hj : j < l.length := by
    refine Nat.lt_of_not_le fun hle => ?_
    rw [List.drop_eq_nil_of_le hle] at hd
    cases hd
  rw [List.drop_eq_getElem_cons hj, List.cons.injEq] at hd
  exact ⟨hj, by rw [List.getElem?_eq_getElem hj, hd.1], hd.2⟩

/-- The first slot, and then the others. -/
theorem slotsAdjust_cons (P : Prepared node T) {l : Node} {ls : List Node} {p : Option Nat}
    {ps : List (Option Nat)} (hle : k ≤ k₁) (hle' : k₁ ≤ k')
    (hfirst : ∀ (room q j : Nat) (slot : Slot) (s : AdjustState), T.objs.length < room + k →
      h.link slot = l → (s.mem (realAt T q)).slots[j]? = some slot → q < k → node q ≠ none →
      Adjusting T k s.table → Untouched h node T s.mem k →
      ∃ s', doSlot (adjustNode bug room) (realAt T q) j s = some s' ∧
        AdjustsSlot h node T k k₁ q j (relocate T slot p) s s')
    (hrest : SlotsAdjust bug h node T k₁ ls ps k') :
    SlotsAdjust bug h node T k (l :: ls) (p :: ps) k' := by
  intro room q j ss s hroom hlinks hdrop hq hnq htable hmem
  cases ss with
  | nil => cases hlinks
  | cons slot ss =>
    simp only [List.map_cons, List.cons.injEq] at hlinks
    obtain ⟨hlink, hlinks⟩ := hlinks
    obtain ⟨hj, hget, hdrop'⟩ := drop_eq_cons hdrop
    obtain ⟨s₁, hrun₁, hs₁⟩ := hfirst room q j slot s hroom hlink hget hq hnq
      htable hmem
    obtain ⟨s', hrun, hs'⟩ := hrest room q (j + 1) ss s₁ (by omega) hlinks
      (by rw [hs₁.own, List.drop_set_of_lt (Nat.lt_succ_self j), hdrop']) (by omega) hnq
      hs₁.table (hs₁.untouched P hq hnq hle hmem)
    refine ⟨s', ?_, hs₁.cons P hq hnq hle hj hle' hs'⟩
    rw [List.length_cons, List.range'_succ, List.foldlM_cons, hrun₁]
    exact hrun

/-- A pointer slot, by what its object is listed as. -/
theorem doSlot_ptr {room a : Nat} (hget : (s.mem (realAt T q)).slots[j]? = some (.ptr a)) :
    doSlot (adjustNode bug room) (realAt T q) j s =
      doRealAddr (adjustNode bug room) (realAt T q) j a s := by
  unfold doSlot
  rw [hget]

/-- A pointer to an object that has an entry before `k`. -/
theorem doRealAddr_seen (P : Prepared node T) {a p room : Nat} (hp : node p = some (.shared a))
    (hpk : p < k) (htable : Adjusting T k s.table) :
    doRealAddr (adjustNode bug room) (realAt T q) j a s =
      some (s.setSlot (realAt T q) j (.ptr (realAt T p))) := by
  unfold doRealAddr
  rw [htable.getRealAddr P hp true]
  simp only [hpk, decide_true, Bool.not_true, Bool.false_eq_true, if_false]

/-- **A location slot** takes the next location of the table, and the file of that is adjusted. -/
theorem doSlot_own (P : Prepared node T) {x : ExpandedLocation} {qs : List (Option Nat)}
    {line room q j : Nat} (hnode : node k = some (.own x))
    (sub : Listing h.below 0 node (k + 1) (h.below (.own x)) qs k₁)
    (hsub : SlotsAdjust bug h node T (k + 1) (h.below (.own x)) qs k₁)
    (hroom : T.objs.length < room + k)
    (hget : (s.mem (realAt T q)).slots[j]? = some (.loc line)) (hq : q < k) (hnq : node q ≠ none)
    (htable : Adjusting T k s.table) (hmem : Untouched h node T s.mem k) :
    ∃ s', doSlot (adjustNode bug room) (realAt T q) j s = some s' ∧
      AdjustsSlot h node T k k₁ q j (relocate T (.loc line) (some k)) s s' := by
  obtain ⟨t, htake, htable'⟩ := htable.myExpandLocation P hnode
  obtain ⟨o, ho, hreal, hoffs, -⟩ := htable'.entry P hnode
  have hmem' := hmem.setSlot (s := ⟨t, s.mem⟩) (j := j) (v := .loc o.offs) P hq hnq
  have hcontent := hmem' k _ (Nat.le_refl k) hnode
  have hfile : (h.content (.own x)).slots = [.ptr x.file] := rfl
  obtain ⟨s', hrun, hs'⟩ := hsub room k 0 [.ptr x.file]
    ((⟨t, s.mem⟩ : AdjustState).setSlot (realAt T q) j (.loc o.offs)) (by omega) rfl
    (by rw [hcontent]; rfl) (Nat.lt_succ_self k)
    (by rw [hnode]; exact Option.some_ne_none _) htable' (hmem'.mono (Nat.le_succ k))
  have hadj := AdjustsSlots.adjusts hnode sub hcontent hs'
  refine ⟨s', ?_, ?_⟩
  · have hslot : doSlot (adjustNode bug room) (realAt T k) 0
        ((⟨t, s.mem⟩ : AdjustState).setSlot (realAt T q) j (.loc o.offs)) = some s' := by
      simpa only [List.length_singleton, List.range'_one, List.foldlM_cons, List.foldlM_nil,
        bind_pure] using hrun
    rw [doSlot_ptr (by rw [hcontent, hfile]; rfl)] at hslot
    unfold doSlot
    simp only [hget, htake, ho, hreal, hcontent, hfile, List.head?_cons]
    exact hslot
  · have hone : AdjustsSlot h node T k k₁ q j (.loc o.offs) ⟨t, s.mem⟩ s' :=
      .new P hq hnq hadj
    rw [relocate, ← hoffs]
    exact ⟨hone.table, hone.own, hone.done, hone.frame⟩

/-- **The walk over the copies**: it goes the way of the collector. -/
theorem adjust_slots (P : Prepared node T) (hb : Passes bug h node) {k k' : Nat} {ls : List Node}
    {ps : List (Option Nat)}
    (hlist : Listing h.below 0 node k ls ps k') : SlotsAdjust bug h node T k ls ps k' := by
  induction hlist with
  | nil k =>
    intro room q j ss s _ hlinks hdrop _ _ htable _
    obtain rfl := List.map_eq_nil_iff.mp hlinks
    have hlen := List.drop_eq_nil_iff.mp hdrop
    refine ⟨s, rfl, htable, ?_, fun i hlo hhi => absurd hhi (Nat.not_lt.mpr hlo), fun _ _ _ => rfl⟩
    rw [List.take_of_length_le hlen, List.zipWith_nil_left, List.append_nil]
  | null rest ih =>
    refine slotsAdjust_cons P (Nat.le_refl _) rest.le ?_ ih
    intro room q j slot s _ hlink hget _ _ htable _
    cases slot with
    | loc => cases hlink
    | ptr a =>
      cases hlink
      refine ⟨_, ?_, .old htable⟩
      rw [doSlot_ptr hget]
      rfl
  | seen hne hi hnode rest ih =>
    refine slotsAdjust_cons P (Nat.le_refl _) rest.le ?_ ih
    intro room q j slot s _ hlink hget _ _ htable _
    cases slot with
    | loc => cases hlink
    | ptr a =>
      cases hlink
      refine ⟨_, ?_, .old htable⟩
      rw [doSlot_ptr hget]
      exact doRealAddr_seen P hnode hi htable
  | @enter k k₁ k' a ls qs ps hne hnew hnode sub rest ihsub ih =>
    have hle : k ≤ k₁ := Nat.le_of_succ_le sub.le
    refine slotsAdjust_cons P hle rest.le ?_ ih
    intro room q j slot s hroom hlink hget hq hnq htable hmem
    cases slot with
    | loc => cases hlink
    | ptr a =>
      cases hlink
      obtain ⟨s', hrun, hs'⟩ := adjustNode_enter P hb hnode sub ihsub hroom
        (s := s.setSlot (realAt T q) j (.ptr (realAt T k))) htable (hmem.setSlot P hq hnq)
      refine ⟨s', ?_, .new P hq hnq hs'⟩
      rw [doSlot_ptr hget]
      unfold doRealAddr
      rw [htable.getRealAddr P hnode true]
      simp only [Nat.lt_irrefl, decide_false, Bool.not_false, if_true]
      exact hrun
  | @own k k₁ k' x ls qs ps hnode sub rest ihsub ih =>
    have hle : k ≤ k₁ := Nat.le_of_succ_le sub.le
    refine slotsAdjust_cons P hle rest.le ?_ ih
    intro room q j slot s hroom hlink hget hq hnq htable hmem
    cases slot with
    | ptr => cases hlink
    | loc line =>
      exact doSlot_own P hnode sub ihsub hroom hget hq hnq htable hmem

/-- One part of the table after the other. -/
theorem Adjusts.trans (P : Prepared node T) (hle : k ≤ k₁) (hs : Adjusts h node T k k₁ s s₁)
    (hle' : k₁ ≤ k') (hs' : Adjusts h node T k₁ k' s₁ s') : Adjusts h node T k k' s s' where
  table := hs'.table
  done i hlo hhi := by
    rcases Nat.lt_or_ge i k₁ with hlt | hge
    · intro n hn
      have hni : node i ≠ none := by rw [hn]; exact Option.some_ne_none n
      obtain ⟨qs, hout, hmem⟩ := hs.done i hlo hlt n hn
      refine ⟨qs, hout, ?_⟩
      rw [hs'.frame _ fun p hp _ hnp => (P.realAt_ne_of_lt hnp hni (by omega)).symm, hmem]
    · exact hs'.done i hge hhi
  frame a hout := by
    rw [hs'.frame a fun i hlo hhi => hout i (by omega) hhi,
      hs.frame a fun i hlo hhi => hout i hlo (by omega)]

theorem Adjusts.untouched (P : Prepared node T) (hle : k ≤ k₁) (hs : Adjusts h node T k k₁ s s')
    (hu : Untouched h node T s.mem k) : Untouched h node T s'.mem k₁ := by
  intro i n hi hn
  have hni : node i ≠ none := by rw [hn]; exact Option.some_ne_none n
  rw [hs.frame _ fun p _ hp hnp => P.realAt_ne_of_lt hni hnp (by omega)]
  exact hu i n (by omega) hn

/-! ## The GCC globals -/

variable {tag : Nat → Nat}

/-- A loop that changes nothing. -/
theorem foldlM_skip {σ : Type} {f : σ → Nat → Option σ} {s : σ} : ∀ {n lo : Nat},
    (∀ i, lo ≤ i → i < lo + n → f s i = some s) → (List.range' lo n).foldlM f s = some s
  | 0, _, _ => rfl
  | n + 1, lo, hskip => by
    rw [List.range'_succ, List.foldlM_cons, hskip lo (Nat.le_refl lo) (by omega)]
    exact foldlM_skip fun i hlo hhi => hskip i (by omega) (by omega)

/-- An entry that is no global is passed over. -/
theorem adjustGlobalVar_skip (L : GlobalsTagged node tag T) {room : Nat} (hi : i < T.objs.length)
    (htag : tag i = 0) (A : Adjusting T k s.table) : adjustGlobalVar bug room i s = some s := by
  have ho := A.objs i
  rw [List.getElem?_eq_getElem hi, Option.map_some] at ho
  have hidx := L.tag (List.getElem?_eq_getElem hi)
  unfold adjustGlobalVar
  rw [ho]
  have hzero : (if i < k then adjusted T T.objs[i] else T.objs[i]).gccGlobalVaridx = 0 := by
    split
    · exact hidx.trans htag
    · exact hidx.trans htag
  simp only [hzero, if_true]

/-- A global without bytes. -/
theorem adjustGlobalVar_bare (P : Prepared node T) (L : GlobalsTagged node tag T) {room : Nat}
    (hk : k < T.objs.length) (hn : node k = none) (htag : tag k ≠ 0)
    (A : Adjusting T k s.table) :
    ∃ s', adjustGlobalVar bug room k s = some s' ∧ Adjusts h node T k (k + 1) s s' := by
  have ho : T.objs[k]? = some T.objs[k] := List.getElem?_eq_getElem hk
  have ht := A.objs k
  simp only [ho, Option.map_some, Nat.lt_irrefl, if_false] at ht
  have hidx : T.objs[k].gccGlobalVaridx ≠ 0 := by rwa [L.tag ho]
  have hsize := (L.size ho).mpr hn
  refine ⟨⟨s.table.settle k (T.getRealAddr T.objs[k].fakeAddr false).1, s.mem⟩, ?_,
    A.settle P hn ho, fun i hlo hhi n hi => ?_, fun _ _ => rfl⟩
  · unfold adjustGlobalVar
    simp only [ht, if_neg hidx]
    by_cases hfake : T.objs[k].fakeAddr = 0
    · simp only [hfake, if_true]
      rfl
    · simp only [hfake, hsize, if_true, if_false, A.adjustShared P hn ho hfake, Option.map_some]
  · obtain rfl : i = k := by omega
    rw [hn] at hi
    cases hi

/-- A global whose object is collected with it. -/
theorem adjustGlobalVar_walked (P : Prepared node T) (hb : Passes bug h node)
    (L : GlobalsTagged node tag T) {room a : Nat} {qs : List (Option Nat)}
    (hroom : T.objs.length < room + k)
    (hn : node k = some (.shared a))
    (sub : Listing h.below 0 node (k + 1) (h.below (.shared a)) qs k₁) (htag : tag k ≠ 0)
    (A : Adjusting T k s.table) (hu : Untouched h node T s.mem k) :
    ∃ s', adjustGlobalVar bug room k s = some s' ∧ Adjusts h node T k k₁ s s' := by
  obtain ⟨o, ho, -, hreal, -⟩ := P.entry hn
  obtain ⟨ha, -, o', ho', -, hfake⟩ := P.shared hn
  rw [ho] at ho'
  cases ho'
  have ht := A.objs k
  simp only [ho, Option.map_some, Nat.lt_irrefl, if_false] at ht
  have hidx : o.gccGlobalVaridx ≠ 0 := by rwa [L.tag ho]
  have hfake' : o.fakeAddr ≠ 0 := by rwa [hfake]
  have hsize : o.size ≠ 0 := fun h0 => by
    have hnone := (L.size ho).mp h0
    rw [hn] at hnone
    cases hnone
  obtain ⟨s', hrun, hs'⟩ := adjustNode_enter P hb hn sub (adjust_slots P hb sub) hroom A hu
  refine ⟨s', ?_, hs'⟩
  have hlt : ¬ s.table.objAdjusted ≥ s'.table.objAdjusted := by
    have hle := sub.le
    rw [A.count, hs'.table.count]
    omega
  unfold adjustGlobalVar
  simp only [ht, if_neg hidx, if_neg hfake', if_neg hsize, ← hreal, hrun, Option.bind_some,
    if_neg hlt]

/-- **The loop over the globals.** -/
theorem adjustGlobalVars_listed (P : Prepared node T) (hb : Passes bug h node)
    (L : GlobalsTagged node tag T) {room : Nat} {gs : List Nat}
    (hg : GlobalsListed h node tag k gs k') :
    ∀ {s : AdjustState}, k' ≤ T.objs.length → T.objs.length < room + k → Adjusting T k s.table →
      Untouched h node T s.mem k →
      ∃ s', (List.range' k (k' - k)).foldlM (fun s i => adjustGlobalVar bug room i s) s = some s' ∧
        Adjusts h node T k k' s s' := by
  induction hg with
  | nil k =>
    intro s _ _ A _
    rw [Nat.sub_self]
    exact ⟨s, rfl, A, fun i hlo hhi => absurd hhi (Nat.not_lt.mpr hlo), fun _ _ => rfl⟩
  | @bare k k' g gs _ hnode htag rest ih =>
    intro s hlen hroom A hu
    have hle := (rest.whole P.once).1
    obtain ⟨s₁, hrun₁, hs₁⟩ := adjustGlobalVar_bare P L (by omega) hnode htag A
    obtain ⟨s', hrun, hs'⟩ := ih hlen (by omega) hs₁.table (hs₁.untouched P (Nat.le_succ k) hu)
    refine ⟨s', ?_, hs₁.trans P (Nat.le_succ k) hle hs'⟩
    rw [show k' - k = (k' - (k + 1)) + 1 by omega, List.range'_succ, List.foldlM_cons, hrun₁]
    exact hrun
  | @walked k k₁ k' g gs ps hlist hlt htag huntagged rest ih =>
    intro s hlen hroom A hu
    have hle := (rest.whole P.once).1
    -- the first entry of the part is that of the global
    obtain ⟨qs, hnode, sub⟩ : ∃ qs, node k = some (.shared g) ∧
        Listing h.below 0 node (k + 1) (h.below (.shared g)) qs k₁ := by
      cases hlist with
      | null hrest =>
        cases hrest
        omega
      | seen _ _ _ hrest =>
        cases hrest
        omega
      | enter _ _ hnode sub hrest =>
        cases hrest
        exact ⟨_, hnode, sub⟩
    obtain ⟨s₁, hrun₁, hs₁⟩ := adjustGlobalVar_walked P hb L hroom hnode sub htag A hu
    obtain ⟨s', hrun, hs'⟩ := ih hlen (by omega) hs₁.table
      (hs₁.untouched P (Nat.le_of_lt hlt) hu)
    refine ⟨s', ?_, hs₁.trans P (Nat.le_of_lt hlt) hle hs'⟩
    have hskip : (List.range' (k + 1) (k₁ - (k + 1))).foldlM
        (fun s i => adjustGlobalVar bug room i s) s₁ = some s₁ :=
      foldlM_skip fun i hlo hhi => adjustGlobalVar_skip L (by omega)
        (huntagged i (by omega) (by omega)) hs₁.table
    have hsplit : List.range' k (k' - k) =
        k :: (List.range' (k + 1) (k₁ - (k + 1)) ++ List.range' k₁ (k' - k₁)) := by
      rw [show k' - k = (k₁ - (k + 1) + (k' - k₁)) + 1 by omega, List.range'_succ,
        ← List.range'_append_1, show k + 1 + (k₁ - (k + 1)) = k₁ by omega]
    rw [hsplit, List.foldlM_cons, hrun₁]
    show (List.range' (k + 1) (k₁ - (k + 1)) ++ List.range' k₁ (k' - k₁)).foldlM
      (fun s i => adjustGlobalVar bug room i s) s₁ = some s'
    rw [List.foldlM_append, hskip]
    exact hrun

end Walk

/-! ## The whole phase -/

section Phase

variable {h : GccHeap} {roots : Roots} {c : Collected} {k i pld : Nat} {n : Node}

/-- The payload of a sibuf that was loaded: the bytes that were collected, one node after the
    other. -/
def Loaded (h : GccHeap) (c : Collected) (pld : Nat) (mem : Nat → Cell) : Prop :=
  ∀ i n, nodeAt c.entries i = some n →
    mem (pld + startOf (c.objs.map FileObj.size) i) = h.content n

/-- The entry of the table when the phase starts. -/
def placed (c : Collected) (pld i : Nat) (e : Entry) : AdjustObj :=
  { e.obj with
    offs := startOf (c.objs.map FileObj.size) i
    realAddr := if e.copy.isSome then pld + startOf (c.objs.map FileObj.size) i else 0
    isAdjusted := false }

theorem adjustStart_getElem? (hc : c.Ok h) (hbytes : c.NonEmpty h) (hp : Placeable pld c.objs)
    (i : Nat) :
    (adjustStart (fixObjs pld none c.objs)).objs[i]? = (c.entries[i]?).map (placed c pld i) := by
  have hfresh : ∀ o ∈ c.objs, o.realAddr = 0 := fun o ho => by
    obtain ⟨e, he, rfl⟩ := List.mem_map.mp ho
    obtain ⟨j, hj⟩ := List.mem_iff_getElem?.mp he
    exact (hc.right j e hj).1
  rcases Nat.lt_or_ge i c.entries.length with hi | hge
  · have hi' : i < c.objs.length := by rwa [Collected.objs, List.length_map]
    have hfix : i < (fixObjs pld none c.objs).length := by rwa [fixObjs_length]
    have he : c.entries[i]? = some c.entries[i] := List.getElem?_eq_getElem hi
    obtain ⟨hreal, hr⟩ := hc.right i _ he
    have hobj : c.objs[i] = c.entries[i].obj := List.getElem_map ..
    have hfit := hp.end_lt
    have hstart := startOf_le_sum (c.objs.map FileObj.size) i
    have hmod : (pld + startOf (c.objs.map FileObj.size) i) % 2 ^ 48 =
        pld + startOf (c.objs.map FileObj.size) i := Nat.mod_eq_of_lt (by omega)
    rw [adjustStart, List.getElem?_map, List.getElem?_eq_getElem hfix,
      fixObjs_getElem pld (Or.inl hfresh) hp.sum_lt i hi' hfix, hobj, he, Option.map_some,
      Option.map_some, placeAt, if_neg (not_not.mpr hreal), hmod]
    generalize c.entries[i] = e at *
    unfold placed adjustObj
    cases hcopy : e.copy with
    | none =>
      simp only [hcopy] at hr
      by_cases hfake : e.obj.fakeAddr = 0
      · simp [hr.1, hr.2.1, hfake]
      · simp [hr.1, hr.2.1, hfake]
    | some n =>
      have hsize := hc.size_ne hbytes he hcopy
      have hfake : e.obj.fakeAddr ≠ 0 := by
        cases n with
        | shared a =>
          simp only [hcopy] at hr
          rw [hr.2.2.1]
          exact hr.1
        | own x =>
          simp only [hcopy] at hr
          exact Nat.ne_of_gt (Nat.lt_of_lt_of_le (by decide) hr.2.1)
      simp [hsize, hfake]
  · rw [List.getElem?_eq_none hge, List.getElem?_eq_none]
    · rfl
    · rwa [adjustStart, List.length_map, fixObjs_length, Collected.objs, List.length_map]

theorem placed_realAt (hc : c.Ok h) (hbytes : c.NonEmpty h) (hp : Placeable pld c.objs)
    (hn : nodeAt c.entries i = some n) :
    realAt (adjustStart (fixObjs pld none c.objs)) i =
      pld + startOf (c.objs.map FileObj.size) i := by
  obtain ⟨e, he, hcopy⟩ := Option.bind_eq_some_iff.mp hn
  rw [realAt, adjustStart_getElem? hc hbytes hp, he]
  simp only [Option.map_some, Option.getD_some, placed, hcopy, Option.isSome_some, if_true]

theorem placed_offsAt (hc : c.Ok h) (hbytes : c.NonEmpty h) (hp : Placeable pld c.objs)
    (hn : nodeAt c.entries i = some n) :
    offsAt (adjustStart (fixObjs pld none c.objs)) i = startOf (c.objs.map FileObj.size) i := by
  obtain ⟨e, he, hcopy⟩ := Option.bind_eq_some_iff.mp hn
  rw [offsAt, adjustStart_getElem? hc hbytes hp, he]
  rfl

/-- **The table is ready for the phase.** -/
theorem prepared (hc : c.Ok h) (hbytes : c.NonEmpty h) (hp : Placeable pld c.objs) :
    Prepared (nodeAt c.entries) (adjustStart (fixObjs pld none c.objs)) where
  fresh i o ho := by
    rw [adjustStart_getElem? hc hbytes hp] at ho
    obtain ⟨e, -, rfl⟩ := Option.map_eq_some_iff.mp ho
    rfl
  real := by rw [adjustStart, List.map_map, Function.comp_def]
  shared {i a} hn := by
    obtain ⟨e, he, hcopy⟩ := Option.bind_eq_some_iff.mp hn
    have hr := (hc.right i e he).2
    simp only [hcopy] at hr
    refine ⟨hr.1, hr.2.1, placed c pld i e, ?_, ?_, hr.2.2.1⟩
    · rw [adjustStart_getElem? hc hbytes hp, he, Option.map_some]
    · have hpos := hp.pos
      simp only [placed, hcopy, Option.isSome_some, if_true]
      omega
  own {i x} hn := by
    obtain ⟨e, he, hcopy⟩ := Option.bind_eq_some_iff.mp hn
    have hr := (hc.right i e he).2
    simp only [hcopy] at hr
    refine ⟨placed c pld i e, ?_, ?_, hr.2.1⟩
    · rw [adjustStart_getElem? hc hbytes hp, he, Option.map_some]
    · have hpos := hp.pos
      simp only [placed, hcopy, Option.isSome_some, if_true]
      omega
  bare {i o} ho hn := by
    rw [adjustStart_getElem? hc hbytes hp] at ho
    obtain ⟨e, he, rfl⟩ := Option.map_eq_some_iff.mp ho
    have hcopy : e.copy = none := by rwa [nodeAt, he, Option.bind_some] at hn
    have hr := (hc.right i e he).2
    simp only [hcopy] at hr
    refine ⟨?_, hr.2.2⟩
    simp only [placed, hcopy, Option.isSome_none, Bool.false_eq_true, if_false]
  apart {i j} hi hj heq := by
    obtain ⟨n, hn⟩ := Option.ne_none_iff_exists'.mp hi
    obtain ⟨n', hn'⟩ := Option.ne_none_iff_exists'.mp hj
    rw [placed_realAt hc hbytes hp hn, placed_realAt hc hbytes hp hn'] at heq
    exact hc.start_inj hbytes hi hj (Nat.add_left_cancel heq)
  once := hc.once

theorem globalsTagged (hc : c.Ok h) (hbytes : c.NonEmpty h) (hp : Placeable pld c.objs) :
    GlobalsTagged (nodeAt c.entries) (tagAt c.entries) (adjustStart (fixObjs pld none c.objs)) where
  tag {i o} ho := by
    rw [adjustStart_getElem? hc hbytes hp] at ho
    obtain ⟨e, he, rfl⟩ := Option.map_eq_some_iff.mp ho
    rw [tagAt, he]
    rfl
  size {i o} ho := by
    rw [adjustStart_getElem? hc hbytes hp] at ho
    obtain ⟨e, he, rfl⟩ := Option.map_eq_some_iff.mp ho
    have hnode : nodeAt c.entries i = e.copy := by rw [nodeAt, he, Option.bind_some]
    rw [hnode]
    cases hcopy : e.copy with
    | none =>
      have hr := (hc.right i e he).2
      simp only [hcopy] at hr
      exact ⟨fun _ => rfl, fun _ => hr.1⟩
    | some n =>
      exact ⟨fun h0 => absurd h0 (hc.size_ne hbytes he hcopy), fun hnone => (by cases hnone)⟩

/-- What a slot of a copy holds: the address of the copy of its object, or the offset of a copy of
    its location. -/
inductive SlotCopied (h : GccHeap) (node : Nat → Option Node) (t : AdjustTable) :
    Slot → Slot → Prop
  | null : SlotCopied h node t (.ptr 0) (.ptr 0)
  | ptr {a j o} (ha : a ≠ 0) (hnode : node j = some (.shared a)) (ho : t.objs[j]? = some o) :
      SlotCopied h node t (.ptr a) (.ptr o.realAddr)
  | loc {line j o} (hnode : node j = some (.own (h.expandLocation line)))
      (ho : t.objs[j]? = some o) : SlotCopied h node t (.loc line) (.loc o.offs)

/-- **The copies are linked as the objects were.** -/
structure Rebuilt (h : GccHeap) (c : Collected) (s : AdjustState) : Prop where
  all : s.table.objAdjusted = c.entries.length ∧ ∀ o ∈ s.table.objs, o.isAdjusted = true
  copied : ∀ i n, nodeAt c.entries i = some n → ∃ o, s.table.objs[i]? = some o ∧
    o.realAddr ≠ 0 ∧ (s.mem o.realAddr).rest = (h.content n).rest ∧
    List.Forall₂ (SlotCopied h (nodeAt c.entries) s.table) (h.content n).slots
      (s.mem o.realAddr).slots
  apart : ∀ (i j : Nat) (o o' : AdjustObj), nodeAt c.entries i ≠ none →
    nodeAt c.entries j ≠ none → s.table.objs[i]? = some o → s.table.objs[j]? = some o' →
      o.realAddr = o'.realAddr → i = j
  locations : ∀ (i i' j j' offs : Nat) (o o' : AdjustObj), nodeAt c.entries i ≠ none →
    nodeAt c.entries i' ≠ none → s.table.objs[i]? = some o → s.table.objs[i']? = some o' →
      (s.mem o.realAddr).slots[j]? = some (.loc offs) →
      (s.mem o'.realAddr).slots[j']? = some (.loc offs) → i = i' ∧ j = j'
  globals : ∀ (i : Nat) (o : AdjustObj), s.table.objs[i]? = some o → tagAt c.entries i ≠ 0 →
    (o.fakeAddr = 0 ∧ o.realAddr = 0) ∨ ∃ j o', nodeAt c.entries j = some (.shared o.fakeAddr) ∧
      s.table.objs[j]? = some o' ∧ o.realAddr = o'.realAddr

/-- The whole walk. -/
theorem cParseAdjust_runs {threadStackSz : Nat} {bug : List UInt8 → Bool} {mem : Nat → Cell}
    (hc : Collects h roots c k) (hch : Chained h roots.decls) (hbytes : c.NonEmpty h)
    (hb : Passes bug h (nodeAt c.entries)) (hp : Placeable pld c.objs)
    (hroom : c.entries.length * 8 * 2 < threadStackSz) (hload : Loaded h c pld mem) :
    ∃ s, cParseAdjust threadStackSz bug (fixObjs pld none c.objs) mem = some s ∧
      Adjusts h (nodeAt c.entries) (adjustStart (fixObjs pld none c.objs)) 0 c.entries.length
        ⟨adjustStart (fixObjs pld none c.objs), mem⟩ s := by
  have P := prepared hc.ok hbytes hp
  have L := globalsTagged hc.ok hbytes hp
  have hlen : (adjustStart (fixObjs pld none c.objs)).objs.length = c.entries.length := by
    rw [adjustStart, List.length_map, fixObjs_length, Collected.objs, List.length_map]
  have hlen' : (fixObjs pld none c.objs).length = c.entries.length := by
    rw [fixObjs_length, Collected.objs, List.length_map]
  obtain ⟨d, qs, hd, sub⟩ := hc.first hch
  obtain ⟨first, hfirst, -, hreal, -⟩ := P.entry hd
  have hle := hc.le
  have hu : Untouched h (nodeAt c.entries) (adjustStart (fixObjs pld none c.objs)) mem 0 :=
    fun i n _ hn => by rw [placed_realAt hc.ok hbytes hp hn, hload i n hn]
  obtain ⟨s₁, hrun₁, hs₁⟩ := adjustNode_enter P hb hd sub (adjust_slots P hb sub)
    (show _ < (c.entries.length + 1) + 0 by omega)
    (s := ⟨adjustStart (fixObjs pld none c.objs), mem⟩) (Adjusting.start rfl rfl) hu
  obtain ⟨s, hrun, hs⟩ := adjustGlobalVars_listed P hb L hc.globals (Nat.le_of_eq hlen.symm)
    (show _ < (c.entries.length + 1) + k by omega) hs₁.table (hs₁.untouched P (Nat.zero_le k) hu)
  refine ⟨s, ?_, hs₁.trans P (Nat.zero_le k) hle hs⟩
  have hskip : (List.range' 0 k).foldlM
      (fun s i => adjustGlobalVar bug (c.entries.length + 1) i s) s₁ = some s₁ :=
    foldlM_skip fun i _ hi => adjustGlobalVar_skip L (by omega) (hc.untagged i (by omega)) hs₁.table
  have hloop : (List.range' 0 c.entries.length).foldlM
      (fun s i => adjustGlobalVar bug (c.entries.length + 1) i s) s₁ = some s := by
    rw [show c.entries.length = k + (c.entries.length - k) by omega, ← List.range'_append_1,
      Nat.zero_add, show k + (c.entries.length - k) = c.entries.length by omega,
      List.foldlM_append, hskip]
    exact hrun
  have hcount : ¬ s.table.objAdjusted ≠ c.entries.length := not_not.mpr hs.table.count
  have hstack : ¬ c.entries.length * 8 * 2 ≥ threadStackSz := by omega
  unfold cParseAdjust
  simp only [hfirst, hlen', if_neg hstack, ← hreal, hrun₁, hloop, Option.bind_some, if_neg hcount]

/-- The entry of a node, once all are adjusted. -/
theorem Adjusting.entry_eq {node : Nat → Option Node} {T t : AdjustTable} (P : Prepared node T)
    (A : Adjusting T k t) (hn : node i = some n) {o : AdjustObj} (ho : t.objs[i]? = some o) :
    o.realAddr = realAt T i ∧ o.offs = offsAt T i := by
  obtain ⟨o', ho', hreal, hoffs, -⟩ := A.entry P hn
  rw [ho] at ho'
  cases ho'
  exact ⟨hreal, hoffs⟩

/-- A slot of a copy, from where the slot of the node leads. -/
theorem slotCopied {node : Nat → Option Node} {T t : AdjustTable} {lo hi : Nat} {slot : Slot}
    {p : Option Nat} (P : Prepared node T) (A : Adjusting T k t)
    (hl : Listing.Leads 0 node lo hi (h.link slot) p) :
    SlotCopied h node t slot (relocate T slot p) := by
  cases slot with
  | ptr a =>
    rw [GccHeap.link] at hl
    cases hl with
    | null => exact .null
    | shared ha _ hnode =>
      obtain ⟨o, ho, hreal, -⟩ := A.entry P hnode
      rw [relocate, ← hreal]
      exact .ptr ha hnode ho
  | loc line =>
    rw [GccHeap.link] at hl
    cases hl with
    | own _ _ hnode =>
      obtain ⟨o, ho, -, hoffs, -⟩ := A.entry P hnode
      rw [relocate, ← hoffs]
      exact .loc hnode ho

/-- The slots of a copy. -/
theorem slotsCopied {node : Nat → Option Node} {T t : AdjustTable} {lo hi : Nat}
    (P : Prepared node T) (A : Adjusting T k t) : ∀ {slots : List Slot} {ps : List (Option Nat)},
      List.Forall₂ (Listing.Leads 0 node lo hi) (slots.map h.link) ps →
      List.Forall₂ (SlotCopied h node t) slots (List.zipWith (relocate T) slots ps)
  | [], _, hl => by
    cases hl
    exact .nil
  | slot :: slots, _, hl => by
    cases hl with
    | cons hfirst hrest => exact .cons (slotCopied P A hfirst) (slotsCopied P A hrest)

/-- A location slot of a copy. -/
theorem locationSlot {node : Nat → Option Node} {T : AdjustTable} {j offs lo hi : Nat}
    {slots : List Slot} {ps : List (Option Nat)}
    (hl : List.Forall₂ (Listing.Leads 0 node lo hi) (slots.map h.link) ps)
    (hj : (List.zipWith (relocate T) slots ps)[j]? = some (.loc offs)) :
    ∃ p x, node p = some (.own x) ∧ ps[j]? = some (some p) ∧ offs = offsAt T p := by
  obtain ⟨slot, q, hslot, hq, hrel⟩ := List.getElem?_zipWith_eq_some.mp hj
  obtain ⟨hlt, hget⟩ := List.getElem?_eq_some_iff.mp hq
  have hlen := hl.length_eq
  have hlead := hl.get (by omega) hlt
  obtain ⟨hlt', hget'⟩ := List.getElem?_eq_some_iff.mp hslot
  simp only [List.get_eq_getElem, hget, List.getElem_map, hget'] at hlead
  cases slot with
  | ptr a => cases q <;> cases hrel
  | loc line =>
    rw [GccHeap.link] at hlead
    cases hlead with
    | own _ _ hnode =>
      cases hrel
      exact ⟨_, _, hnode, hq, rfl⟩

/-- What the walk leaves is linked as the objects were. -/
theorem Adjusts.rebuilt {T : AdjustTable} {s₀ s : AdjustState} (hc : Collects h roots c k)
    (P : Prepared (nodeAt c.entries) T)
    (hlen : T.objs.length = c.entries.length)
    (hinj : ∀ i j, nodeAt c.entries i ≠ none → nodeAt c.entries j ≠ none →
      offsAt T i = offsAt T j → i = j)
    (hs : Adjusts h (nodeAt c.entries) T 0 c.entries.length s₀ s) : Rebuilt h c s := by
  have A := hs.table
  have hdone : ∀ {i n o}, nodeAt c.entries i = some n → s.table.objs[i]? = some o → ∃ qs k₁,
      Listing h.below 0 (nodeAt c.entries) (i + 1) (h.below n) qs k₁ ∧
      s.mem o.realAddr =
        ⟨List.zipWith (relocate T) (h.content n).slots qs, (h.content n).rest⟩ := by
    intro i n o hn ho
    obtain ⟨qs, ⟨n', k₁, hn', hlist⟩, hmem⟩ := hs.done i (Nat.zero_le i) (nodeAt_lt hn) n hn
    rw [hn] at hn'
    cases hn'
    rw [← (A.entry_eq P hn ho).1] at hmem
    exact ⟨qs, k₁, hlist, hmem⟩
  refine ⟨⟨A.count, fun o ho => ?_⟩, fun i n hn => ?_, fun i j o o' hi hj ho ho' heq => ?_,
    fun i i' j j' offs o o' hi hi' ho ho' hj hj' => ?_, fun i o ho htag => ?_⟩
  · obtain ⟨i, hi⟩ := List.mem_iff_getElem?.mp ho
    obtain ⟨o', ho', rfl⟩ := A.entry_cases hi
    rw [if_pos (hlen ▸ (List.getElem?_eq_some_iff.mp ho').1)]
    rfl
  · obtain ⟨o, ho, hreal, -, -, hne, -⟩ := A.entry P hn
    obtain ⟨qs, k₁, hlist, hmem⟩ := hdone hn ho
    refine ⟨o, ho, hne, by rw [hmem], ?_⟩
    rw [hmem]
    exact slotsCopied P A hlist.leads
  · obtain ⟨n, hn⟩ := Option.ne_none_iff_exists'.mp hi
    obtain ⟨n', hn'⟩ := Option.ne_none_iff_exists'.mp hj
    rw [(A.entry_eq P hn ho).1, (A.entry_eq P hn' ho').1] at heq
    exact P.apart hi hj heq
  · obtain ⟨n, hn⟩ := Option.ne_none_iff_exists'.mp hi
    obtain ⟨n', hn'⟩ := Option.ne_none_iff_exists'.mp hi'
    obtain ⟨qs, k₁, hlist, hmem⟩ := hdone hn ho
    obtain ⟨qs', k₁', hlist', hmem'⟩ := hdone hn' ho'
    rw [hmem] at hj
    rw [hmem'] at hj'
    obtain ⟨p, x, hpx, hq, hoffs⟩ := locationSlot hlist.leads hj
    obtain ⟨p', x', hpx', hq', hoffs'⟩ := locationSlot hlist'.leads hj'
    -- both slots have the offset of one location
    obtain rfl : p = p' := hinj p p' (by rw [hpx]; exact Option.some_ne_none _)
      (by rw [hpx']; exact Option.some_ne_none _) (hoffs ▸ hoffs')
    exact hc.whole.apart (Nat.zero_le i) (nodeAt_lt hn) (Nat.zero_le i') (nodeAt_lt hn')
      ⟨n, k₁, hn, hlist⟩ ⟨n', k₁', hn', hlist'⟩ hpx hq hq'
  · obtain ⟨o', ho', rfl⟩ := A.entry_cases ho
    have hi : i < c.entries.length := hlen ▸ (List.getElem?_eq_some_iff.mp ho').1
    rw [if_pos hi] at ho ⊢
    cases hn : nodeAt c.entries i with
    | some n =>
      cases n with
      | shared a =>
        obtain ⟨-, -, o'', ho'', -, hfake⟩ := P.shared hn
        rw [ho'] at ho''
        cases ho''
        exact Or.inr ⟨i, _, hfake.symm ▸ hn, ho, rfl⟩
      | own x => exact absurd hn (hc.not_own htag)
    | none =>
      obtain ⟨hzero, hshare⟩ := P.bare ho' hn
      rcases hshare with h0 | ⟨j, hj, hnode⟩
      · refine Or.inl ⟨h0, ?_⟩
        simp only [adjusted, hzero, ne_eq, not_true_eq_false, if_false, h0]
        rfl
      · obtain ⟨oj, hoj, hreal, -⟩ := A.entry P hnode
        refine Or.inr ⟨j, oj, hnode, hoj, ?_⟩
        simp only [adjusted, hzero, ne_eq, not_true_eq_false, if_false, P.getRealAddr hnode false,
          hreal]

/-- **`MODE_ADJUST` rebuilds the objects**: whatever was collected from declarations that are
    chained, the phase comes to its end, and the copies are linked as the objects were.  No object
    is empty or fails a check of the phase, the payload has its place below `2 ^ 48`, and the stack
    has room for two addresses for each entry. -/
theorem adjust_isomorphic (threadStackSz : Nat) (bug : List UInt8 → Bool) (h : GccHeap)
    (roots : Roots) (memPtrStart pld : Nat) (c : Collected) (mem : Nat → Cell)
    (hmem : memPtrStart ≤ MAX_SIZE_PER_FILE)
    (hcollect : astCollect h roots memPtrStart = .ok c) (hch : Chained h roots.decls)
    (hsize : ∀ a, Reached h roots (.shared a) → 0 < h.size a)
    (hbug : ∀ n, Reached h roots n → bug (h.content n).rest = false)
    (hpos : 0 < pld) (hend : pld + (c.objs.map FileObj.size).sum < 2 ^ 48)
    (hroom : c.entries.length * 8 * 2 < threadStackSz) (hload : Loaded h c pld mem) :
    ∃ s, cParseAdjust threadStackSz bug (fixObjs pld none c.objs) mem = some s ∧
      Rebuilt h c s := by
  obtain ⟨k, hc⟩ := astCollect_listing hmem hcollect
  have hbytes : c.NonEmpty h := fun i a hi => hsize a ((hc.reached _).mp ⟨i, hi⟩)
  have hb : Passes bug h (nodeAt c.entries) := fun i n hi => hbug n ((hc.reached n).mp ⟨i, hi⟩)
  have hp : Placeable pld c.objs := by
    have hsum := hc.ok.sizes
    have hmax := hc.ok.memory
    refine ⟨hpos, ?_, hend⟩
    simp only [MAX_SIZE_PER_FILE] at hmax
    omega
  have P := prepared hc.ok hbytes hp
  obtain ⟨s, hrun, hs⟩ := cParseAdjust_runs hc hch hbytes hb hp hroom hload
  refine ⟨s, hrun, hs.rebuilt hc P ?_ fun i j hi hj heq => ?_⟩
  · rw [adjustStart, List.length_map, fixObjs_length, Collected.objs, List.length_map]
  · obtain ⟨n, hn⟩ := Option.ne_none_iff_exists'.mp hi
    obtain ⟨n', hn'⟩ := Option.ne_none_iff_exists'.mp hj
    rw [placed_offsAt hc.ok hbytes hp hn, placed_offsAt hc.ok hbytes hp hn'] at heq
    exact hc.ok.start_inj hbytes hi hj heq

end Phase

/-- The payload of `chainTable` at `0x10000000`. -/
def chainMem (a : Nat) : Cell :=
  match (List.range 11).find? fun i => (nodeAt chainTable.entries i).isSome &&
      0x10000000 + startOf (chainTable.objs.map FileObj.size) i == a with
  | none => ⟨[], []⟩
  | some i => ((nodeAt chainTable.entries i).map chainHeap.content).getD ⟨[], []⟩

theorem chain_chained : Chained chainHeap chainRoots.decls := by
  refine ⟨0x1000, [0x2000], rfl, by decide, fun d hd _ => ?_⟩
  obtain rfl := List.mem_singleton.mp hd
  have h₁ : Listing.Steps chainHeap.below 0 (.shared 0x1000) (.shared 0x1100) :=
    ⟨by decide, by decide⟩
  have h₂ : Listing.Steps chainHeap.below 0 (.shared 0x1100) (.shared 0x2100) :=
    ⟨by decide, by decide⟩
  have h₃ : Listing.Steps chainHeap.below 0 (.shared 0x2100) (.shared 0x2000) :=
    ⟨by decide, by decide⟩
  exact .tail (.tail (.tail .refl h₁) h₂) h₃

theorem chain_loaded : Loaded chainHeap chainTable 0x10000000 chainMem := by
  intro i n hn
  have hi := nodeAt_lt hn
  have hall : ∀ i < 11, ∀ n ∈ nodeAt chainTable.entries i,
      chainMem (0x10000000 + startOf (chainTable.objs.map FileObj.size) i) =
        chainHeap.content n := by decide
  exact hall i hi n hn

/-- A check that the strange object fails, which is not reached from `chainRoots`. -/
def chainBug (rest : List UInt8) : Bool := rest = [0]

theorem chain_rebuilt : ∃ s, cParseAdjust (1024 * 1024 * 0x10) chainBug
    (fixObjs 0x10000000 none chainTable.objs) chainMem = some s ∧
      Rebuilt chainHeap chainTable s := by
  have hrest : ∀ i < 11, ∀ n ∈ nodeAt chainTable.entries i,
      chainBug (chainHeap.content n).rest = false := by decide
  refine adjust_isomorphic (1024 * 1024 * 0x10) chainBug chainHeap chainRoots 0 0x10000000
    chainTable chainMem (Nat.zero_le _) chain_collected chain_chained (fun _ _ => Nat.succ_pos 15)
    (fun n hn => ?_) (by decide) (by decide) (by decide) chain_loaded
  obtain ⟨k, hc⟩ := astCollect_listing (Nat.zero_le _) chain_collected
  obtain ⟨i, hi⟩ := (hc.reached n).mpr hn
  exact hrest i (nodeAt_lt hi) n hi

end Srcinv.Analysis
