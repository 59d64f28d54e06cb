import Srcinv.Analysis.Preview

/-!
# The scans of the object table (`__get_real_addr`, `__is_obj_checked`, `analysis/gcc/c.cc`)

A node of the collector is found in the object table by a linear scan, by its address in the
collector or by its new one.  The callers choose between a scan from the first entry on and one that
starts behind the first part of a large table and takes that part last.

* `scan_reverse` — both scans find the same as soon as all entries that match agree.
* `lookups_reverse` — for a table in which at most one entry of an object has an address, both find
  that entry, and none for an object that was not collected; by a new address they do where one
  entry has it.
* `empty_object_found_twice` — an object without bytes is at the address of the next one.
* `adjustStart_realUnique` — the addresses of a previewed table are apart, as `__is_obj_checked`
  needs.
-/

namespace Srcinv.Analysis

open Srcinv.Lib

/-! ## Scans -/

/-- The first index from `start` on and below `stop` that matches. -/
def scanFrom (p : Nat → Bool) (start stop : Nat) : Option Nat :=
  (List.range' start (stop - start)).find? p

/-- The loops over `cnt` entries.  The reversed ones start behind the first part of a large
    table. -/
def scan (p : Nat → Bool) (cnt : Nat) (reverse : Bool) : Option Nat :=
  if reverse ∧ cnt > MAX_OBJS_PER_FILE / 8 then
    match scanFrom p (MAX_OBJS_PER_FILE / 8) cnt with
    | some i => some i
    | none => scanFrom p 0 (MAX_OBJS_PER_FILE / 8)
  else scanFrom p 0 cnt

section Scan

variable {p : Nat → Bool} {start stop cnt i : Nat} {reverse : Bool}

theorem scanFrom_some (h : scanFrom p start stop = some i) : p i = true ∧ start ≤ i ∧ i < stop := by
  unfold scanFrom at h
  rw [List.find?_range'_eq_some] at h
  obtain ⟨hp, hmem, -⟩ := h
  rw [List.mem_range'_1] at hmem
  exact ⟨hp, hmem.1, by omega⟩

theorem scanFrom_none :
    scanFrom p start stop = none ↔ ∀ i, start ≤ i → i < stop → p i = false := by
  unfold scanFrom
  rw [List.find?_range'_eq_none]
  constructor
  · intro h i hlo hhi
    simpa using h i hlo (by omega)
  · intro h i hlo hhi
    simpa using h i hlo (by omega)

/-- What a scan finds matches. -/
theorem scan_some (h : scan p cnt reverse = some i) : p i = true ∧ i < cnt := by
  unfold scan at h
  split at h
  · rename_i hbig
    split at h
    · rename_i j hj
      cases h
      obtain ⟨hp, -, hlt⟩ := scanFrom_some hj
      exact ⟨hp, hlt⟩
    · obtain ⟨hp, -, hlt⟩ := scanFrom_some h
      exact ⟨hp, Nat.lt_trans hlt hbig.2⟩
  · obtain ⟨hp, -, hlt⟩ := scanFrom_some h
    exact ⟨hp, hlt⟩

/-- Every entry is looked at, whatever the order. -/
theorem scan_none : scan p cnt reverse = none ↔ ∀ i, i < cnt → p i = false := by
  unfold scan
  split
  · rename_i hbig
    constructor
    · intro h i hi
      split at h
      · cases h
      · rename_i hhigh
        rcases Nat.lt_or_ge i (MAX_OBJS_PER_FILE / 8) with hlt | hge
        · exact scanFrom_none.mp h i (Nat.zero_le i) hlt
        · exact scanFrom_none.mp hhigh i hge hi
    · intro h
      have hhigh : scanFrom p (MAX_OBJS_PER_FILE / 8) cnt = none :=
        scanFrom_none.mpr fun i _ hi => h i hi
      rw [hhigh]
      exact scanFrom_none.mpr fun i _ hi => h i (Nat.lt_trans hi hbig.2)
  · rw [scanFrom_none]
    exact ⟨fun h i hi => h i (Nat.zero_le i) hi, fun h i _ hi => h i hi⟩

/-- **Both scans find the same when the entries that match agree.** -/
theorem scan_reverse {β : Type} {f : Nat → β}
    (h : ∀ i j, i < cnt → j < cnt → p i = true → p j = true → f i = f j) :
    (scan p cnt true).map f = (scan p cnt false).map f := by
  cases hrev : scan p cnt true with
  | none =>
    have hfwd : scan p cnt false = none := scan_none.mpr (scan_none.mp hrev)
    rw [hfwd]
  | some i =>
    obtain ⟨hpi, hi⟩ := scan_some hrev
    cases hfwd : scan p cnt false with
    | none =>
      have hnot := scan_none.mp hfwd i hi
      rw [hpi] at hnot
      cases hnot
    | some j =>
      obtain ⟨hpj, hj⟩ := scan_some hfwd
      simp only [Option.map_some, h i j hi hj hpi hpj]

end Scan

/-! ## The table while its addresses are adjusted -/

/-- `struct file_obj` with the bit that `MODE_ADJUST` uses. -/
structure AdjustObj extends FileObj where
  isAdjusted : Bool
  deriving DecidableEq, Repr

/-- The globals of `MODE_ADJUST`.  The two arrays are copies that are made once. -/
structure AdjustTable where
  objs : List AdjustObj
  realAddrs : List Nat
  fakeAddrs : List Nat
  objIdx : Nat
  objAdjusted : Nat
  real_length : realAddrs.length = objs.length
  fake_eq : fakeAddrs = objs.map fun o => o.fakeAddr

namespace AdjustTable

/-- The entry that `__get_real_addr` stops at. -/
def objOf (t : AdjustTable) (fakeAddr : Nat) (reverse : Bool) : Option Nat :=
  scan (fun i => t.fakeAddrs[i]? == some fakeAddr && (t.objs[i]?).any fun o => o.realAddr != 0)
    t.objs.length reverse

/-- `__get_real_addr`: what `*fake_addr` becomes, and `*do_next`. -/
def getRealAddr (t : AdjustTable) (fakeAddr : Nat) (reverse : Bool) : Nat × Bool :=
  if fakeAddr = 0 then (fakeAddr, false)
  else
    match (t.objOf fakeAddr reverse).bind fun i => t.objs[i]? with
    | some o => (o.realAddr, !o.isAdjusted)
    | none => (0, false)

/-- Entry `i` is changed and counted as adjusted; its fake address is read only. -/
def adjustEntry (t : AdjustTable) (i : Nat) (f : AdjustObj → AdjustObj)
    (hf : ∀ o, (f o).fakeAddr = o.fakeAddr) : AdjustTable where
  objs := t.objs.modify i f
  realAddrs := t.realAddrs
  fakeAddrs := t.fakeAddrs
  objIdx := t.objIdx
  objAdjusted := t.objAdjusted + 1
  real_length := by rw [List.length_modify, t.real_length]
  fake_eq := by
    rw [t.fake_eq]
    apply List.ext_getElem?
    intro j
    simp only [List.getElem?_map, List.getElem?_modify]
    cases t.objs[j]? with
    | none => rfl
    | some o =>
      simp only [Option.map_eq_map, Option.map_some]
      split
      · rw [hf o]
      · rfl

/-- `objs[i].is_adjusted = 1; obj_adjusted++`. -/
def setAdjusted (t : AdjustTable) (i : Nat) : AdjustTable :=
  t.adjustEntry i (fun o => { o with isAdjusted := true }) fun _ => rfl

/-- `__is_obj_checked` in `MODE_ADJUST`; `none` is its `BUG()`. -/
def isObjCheckedAdjust (t : AdjustTable) (realAddr : Nat) (reverse : Bool) :
    Option (Bool × AdjustTable) :=
  match scan (fun i => t.realAddrs[i]? == some realAddr) t.objs.length reverse with
  | none => none
  | some i =>
    let t := { t with objIdx := i }
    if (t.objs[i]?).any fun o => o.isAdjusted then some (true, t) else some (false, t.setAdjusted i)

/-- `do_gcc_global_var_adjust` at a global that is one of the collected objects; `none` is its
    `BUG_ON`. -/
def adjustShared (t : AdjustTable) (i : Nat) : Option AdjustTable :=
  match t.objs[i]? with
  | none => none
  | some o =>
    if (t.getRealAddr o.fakeAddr false).1 = 0 then none
    else some (t.adjustEntry i (fun o' => { o' with
      realAddr := (t.getRealAddr o.fakeAddr false).1, isAdjusted := true }) fun _ => rfl)

/-- At most one entry of a collected object was given an address. -/
def FakeUnique (t : AdjustTable) : Prop :=
  ∀ i (hi : i < t.objs.length) j (hj : j < t.objs.length),
    t.objs[i].realAddr ≠ 0 → t.objs[j].realAddr ≠ 0 →
      t.objs[i].fakeAddr = t.objs[j].fakeAddr → i = j

/-- At most one entry has the address. -/
def RealUnique (t : AdjustTable) (realAddr : Nat) : Prop :=
  ∀ i j : Nat, t.realAddrs[i]? = some realAddr → t.realAddrs[j]? = some realAddr → i = j

variable {t : AdjustTable} {fakeAddr realAddr i : Nat}

/-- Which entries the scan for a fake address stops at. -/
theorem objOf_matches (hi : i < t.objs.length) :
    (t.fakeAddrs[i]? == some fakeAddr && (t.objs[i]?).any fun o => o.realAddr != 0) = true ↔
      t.objs[i].fakeAddr = fakeAddr ∧ t.objs[i].realAddr ≠ 0 := by
  simp [t.fake_eq, hi]

/-- Both directions stop at the same entry. -/
theorem objOf_reverse (hu : t.FakeUnique) (fakeAddr : Nat) :
    t.objOf fakeAddr true = t.objOf fakeAddr false := by
  have hsame := @scan_reverse
    (fun i => t.fakeAddrs[i]? == some fakeAddr && (t.objs[i]?).any fun o => o.realAddr != 0)
    t.objs.length Nat id fun i j hi hj hpi hpj => by
      obtain ⟨hfi, hri⟩ := (objOf_matches hi).mp hpi
      obtain ⟨hfj, hrj⟩ := (objOf_matches hj).mp hpj
      exact hu i hi j hj hri hrj (hfi.trans hfj.symm)
  rwa [Option.map_id_fun, id, id] at hsame

/-- An object of which no entry has an address has none to stop at. -/
theorem objOf_absent (h : ∀ o ∈ t.objs, o.fakeAddr = fakeAddr → o.realAddr = 0) (reverse : Bool) :
    t.objOf fakeAddr reverse = none := by
  refine scan_none.mpr fun i hi => ?_
  rw [Bool.eq_false_iff]
  intro hp
  obtain ⟨hfake, hreal⟩ := (objOf_matches hi).mp hp
  exact hreal (h _ (List.getElem_mem hi) hfake)

/-- The entry that has an address is found, in both directions. -/
theorem objOf_entry (hu : t.FakeUnique) {o : AdjustObj} (ho : t.objs[i]? = some o)
    (hfake : o.fakeAddr = fakeAddr) (hreal : o.realAddr ≠ 0) (reverse : Bool) :
    t.objOf fakeAddr reverse = some i := by
  obtain ⟨hi, rfl⟩ := List.getElem?_eq_some_iff.mp ho
  cases hscan : t.objOf fakeAddr reverse with
  | none =>
    have hno := scan_none.mp hscan i hi
    rw [(objOf_matches hi).mpr ⟨hfake, hreal⟩] at hno
    cases hno
  | some j =>
    obtain ⟨hp, hj⟩ := scan_some hscan
    obtain ⟨hfake', hreal'⟩ := (objOf_matches hj).mp hp
    rw [hu j hj i hi hreal' hreal (hfake'.trans hfake.symm)]

/-- `__is_obj_checked` goes on with the one entry that has the address. -/
theorem isObjChecked_entry (hu : t.RealUnique realAddr) (hi : t.realAddrs[i]? = some realAddr)
    {o : AdjustObj} (ho : t.objs[i]? = some o) (reverse : Bool) :
    t.isObjCheckedAdjust realAddr reverse = some (o.isAdjusted,
      if o.isAdjusted then { t with objIdx := i } else { t with objIdx := i }.setAdjusted i) := by
  have hscan : scan (fun i => t.realAddrs[i]? == some realAddr) t.objs.length reverse =
      some i := by
    cases hscan : scan (fun i => t.realAddrs[i]? == some realAddr) t.objs.length reverse with
    | none =>
      have hno := scan_none.mp hscan i (List.getElem?_eq_some_iff.mp ho).1
      rw [hi] at hno
      exact absurd hno (by simp)
    | some j =>
      obtain ⟨hp, -⟩ := scan_some hscan
      rw [hu j i (by simpa using hp) hi]
  unfold isObjCheckedAdjust
  simp only [hscan, ho, Option.any_some]
  cases o.isAdjusted <;> rfl

/-- `obj_idx` is where the scan stops. -/
theorem isObjChecked_objIdx (t : AdjustTable) (realAddr : Nat) (reverse : Bool) :
    (t.isObjCheckedAdjust realAddr reverse).map (fun r => r.2.objIdx) =
      scan (fun i => t.realAddrs[i]? == some realAddr) t.objs.length reverse := by
  unfold isObjCheckedAdjust
  cases scan (fun i => t.realAddrs[i]? == some realAddr) t.objs.length reverse with
  | none => rfl
  | some i =>
    simp only
    split <;> rfl

/-- An address that no entry has is its `BUG()`. -/
theorem isObjChecked_absent (h : realAddr ∉ t.realAddrs) (reverse : Bool) :
    t.isObjCheckedAdjust realAddr reverse = none := by
  have hscan : scan (fun i => t.realAddrs[i]? == some realAddr) t.objs.length reverse = none := by
    refine scan_none.mpr fun i _ => Bool.eq_false_iff.mpr fun hp => h ?_
    exact List.mem_of_getElem? (by simpa using hp : t.realAddrs[i]? = some realAddr)
  unfold isObjCheckedAdjust
  rw [hscan]

/-- The entries of one object that have an address agree. -/
def FakeAgree (t : AdjustTable) : Prop :=
  ∀ (i j : Nat) (o o' : AdjustObj), t.objs[i]? = some o → t.objs[j]? = some o' → o.realAddr ≠ 0 →
    o'.realAddr ≠ 0 → o.fakeAddr = o'.fakeAddr →
      o.realAddr = o'.realAddr ∧ o.isAdjusted = o'.isAdjusted

theorem FakeUnique.agree (hu : t.FakeUnique) : t.FakeAgree := by
  intro i j o o' hi hj hro hro' hfake
  obtain ⟨hli, rfl⟩ := List.getElem?_eq_some_iff.mp hi
  obtain ⟨hlj, rfl⟩ := List.getElem?_eq_some_iff.mp hj
  obtain rfl := hu i hli j hlj hro hro' hfake
  exact ⟨rfl, rfl⟩

/-- The entry that a lookup stops at. -/
theorem objOf_some {reverse : Bool} (h : t.objOf fakeAddr reverse = some i) :
    ∃ o, t.objs[i]? = some o ∧ o.fakeAddr = fakeAddr ∧ o.realAddr ≠ 0 := by
  obtain ⟨hp, hi⟩ := scan_some h
  exact ⟨t.objs[i], List.getElem?_eq_getElem hi, (objOf_matches hi).mp hp⟩

/-- What a lookup returns is the same in both directions. -/
theorem getRealAddr_of_agree (ha : t.FakeAgree) (fakeAddr : Nat) :
    t.getRealAddr fakeAddr true = t.getRealAddr fakeAddr false := by
  unfold getRealAddr
  split
  · rfl
  · have hsame := @scan_reverse
      (fun i => t.fakeAddrs[i]? == some fakeAddr && (t.objs[i]?).any fun o => o.realAddr != 0)
      t.objs.length _ (fun i => (t.objs[i]?).map fun o => (o.realAddr, !o.isAdjusted))
      fun i j hi hj hpi hpj => by
        obtain ⟨hfi, hri⟩ := (objOf_matches hi).mp hpi
        obtain ⟨hfj, hrj⟩ := (objOf_matches hj).mp hpj
        obtain ⟨hreal, hadj⟩ := ha i j _ _ (List.getElem?_eq_getElem hi)
          (List.getElem?_eq_getElem hj) hri hrj (hfi.trans hfj.symm)
        simp [hi, hj, hreal, hadj]
    change (t.objOf fakeAddr true).map _ = (t.objOf fakeAddr false).map _ at hsame
    cases htrue : t.objOf fakeAddr true with
    | none =>
      cases hfalse : t.objOf fakeAddr false with
      | none => rfl
      | some j => simp [htrue, hfalse] at hsame
    | some i =>
      cases hfalse : t.objOf fakeAddr false with
      | none => simp [htrue, hfalse] at hsame
      | some j =>
        obtain ⟨o, ho, -⟩ := objOf_some htrue
        obtain ⟨o', ho', -⟩ := objOf_some hfalse
        simp only [htrue, hfalse, ho, ho', Option.map_some, Option.some.injEq] at hsame
        simp [ho, ho', hsame]

/-- The entries of a table in which one was changed. -/
theorem adjustEntry_entry {f : AdjustObj → AdjustObj} {hf : ∀ o, (f o).fakeAddr = o.fakeAddr}
    {k : Nat} {o : AdjustObj} (h : (t.adjustEntry i f hf).objs[k]? = some o) :
    (∃ o', t.objs[i]? = some o' ∧ o = f o') ∨ t.objs[k]? = some o := by
  simp only [adjustEntry, List.getElem?_modify] at h
  split at h
  · rename_i hik
    obtain ⟨o', ho', rfl⟩ := Option.map_eq_some_iff.mp h
    exact Or.inl ⟨o', hik ▸ ho', rfl⟩
  · rw [Option.map_eq_map, Option.map_id'] at h
    exact Or.inr h

/-- A lookup that finds an object returns what the entries of that object agree on. -/
theorem getRealAddr_entry (ha : t.FakeAgree) {reverse : Bool}
    (h : (t.getRealAddr fakeAddr reverse).1 ≠ 0) {o : AdjustObj} (ho : t.objs[i]? = some o)
    (hreal : o.realAddr ≠ 0) (hfake : o.fakeAddr = fakeAddr) :
    t.getRealAddr fakeAddr reverse = (o.realAddr, !o.isAdjusted) := by
  unfold getRealAddr at h ⊢
  split at h
  · rename_i hnull
    exact absurd hnull h
  · rename_i hne
    rw [if_neg hne]
    cases hfound : t.objOf fakeAddr reverse with
    | none => simp [hfound] at h
    | some j =>
      obtain ⟨o', ho', hfake', hreal'⟩ := objOf_some hfound
      obtain ⟨haddr, hadj⟩ := ha j i o' o ho' ho hreal' hreal (hfake'.trans hfake.symm)
      simp only [Option.bind_some, ho', haddr, hadj]

/-- A global that gets the address of an object which is adjusted leaves all entries in agreement,
    so lookups may meet it from then on. -/
theorem adjustShared_agree {t' : AdjustTable} (ha : t.FakeAgree) (h : t.adjustShared i = some t')
    (hdone : ∀ o, t.objs[i]? = some o → (t.getRealAddr o.fakeAddr false).2 = false) :
    t'.FakeAgree := by
  unfold adjustShared at h
  split at h
  · cases h
  rename_i g hg
  split at h
  · cases h
  rename_i hfound
  cases h
  -- what the other entries of the object say is what the lookup returned
  have hother : ∀ (k : Nat) (o : AdjustObj), t.objs[k]? = some o → o.realAddr ≠ 0 →
      o.fakeAddr = g.fakeAddr →
        o.realAddr = (t.getRealAddr g.fakeAddr false).1 ∧ o.isAdjusted = true := by
    intro k o ho hreal hfake
    have hentry := getRealAddr_entry ha hfound ho hreal hfake
    have hnext := hdone g hg
    rw [hentry] at hnext ⊢
    exact ⟨rfl, by simpa using hnext⟩
  have hget : ∀ (k : Nat) (o : AdjustObj), (t.adjustEntry i (fun o' => { o' with
      realAddr := (t.getRealAddr g.fakeAddr false).1, isAdjusted := true })
        fun _ => rfl).objs[k]? = some o →
      (o.fakeAddr = g.fakeAddr ∧ o.realAddr = (t.getRealAddr g.fakeAddr false).1 ∧
        o.isAdjusted = true) ∨ t.objs[k]? = some o := by
    intro k o ho
    rcases adjustEntry_entry ho with ⟨o', ho', rfl⟩ | hk
    · rw [hg] at ho'
      cases ho'
      exact Or.inl ⟨rfl, rfl, rfl⟩
    · exact Or.inr hk
  intro j k o o' hj hk hro hro' hfake
  rcases hget j o hj with ⟨hf, hr, had⟩ | hj
  · rcases hget k o' hk with ⟨-, hr', had'⟩ | hk
    · exact ⟨hr.trans hr'.symm, had.trans had'.symm⟩
    · obtain ⟨hr', had'⟩ := hother k o' hk hro' (hfake.symm.trans hf)
      exact ⟨hr.trans hr'.symm, had.trans had'.symm⟩
  · rcases hget k o' hk with ⟨hf, hr', had'⟩ | hk
    · obtain ⟨hr, had⟩ := hother j o hj hro (hfake.trans hf)
      exact ⟨hr.trans hr'.symm, had.trans had'.symm⟩
    · exact ha j k o o' hj hk hro hro' hfake

/-- **Both directions find the same object**, by its address in the collector and by its new one:
    the entry that has the address, and none where no entry has it. -/
theorem lookups_reverse (t : AdjustTable) (hu : t.FakeUnique) (addr : Nat) (reverse : Bool) :
    (∀ (i : Nat) (o : AdjustObj), t.objs[i]? = some o → o.fakeAddr = addr → o.realAddr ≠ 0 →
      t.objOf addr reverse = some i ∧
        (addr ≠ 0 → t.getRealAddr addr reverse = (o.realAddr, !o.isAdjusted))) ∧
      ((∀ o ∈ t.objs, o.fakeAddr = addr → o.realAddr = 0) →
        t.objOf addr reverse = none ∧ t.getRealAddr addr reverse = (0, false)) ∧
      (∀ (i : Nat) (o : AdjustObj), t.RealUnique addr → t.realAddrs[i]? = some addr →
        t.objs[i]? = some o → t.isObjCheckedAdjust addr reverse = some (o.isAdjusted,
          if o.isAdjusted then { t with objIdx := i } else { t with objIdx := i }.setAdjusted i)) ∧
      (addr ∉ t.realAddrs → t.isObjCheckedAdjust addr reverse = none) := by
  refine ⟨fun i o ho hfake hreal => ?_, fun h => ?_, fun i o hr hi ho => isObjChecked_entry hr hi ho
    reverse, fun h => isObjChecked_absent h reverse⟩
  · have hobj := objOf_entry hu ho hfake hreal reverse
    refine ⟨hobj, fun hne => ?_⟩
    unfold getRealAddr
    rw [if_neg hne, hobj, Option.bind_some, ho]
  · have hobj := objOf_absent h reverse
    refine ⟨hobj, ?_⟩
    unfold getRealAddr
    rw [hobj]
    split
    · rename_i hnull
      rw [hnull]
    · rfl

end AdjustTable

/-! ## The table that the phase starts with -/

/-- What the loop of `c_parse` does to an entry: the globals without bytes lose their address. -/
def adjustObj (o : FileObj) : AdjustObj :=
  let o := if o.gccGlobalVaridx ≠ 0 ∧ o.fakeAddr = 0 then { o with realAddr := 0 } else o
  let o := if o.gccGlobalVaridx ≠ 0 ∧ o.size = 0 then { o with realAddr := 0 } else o
  { toFileObj := o, isAdjusted := false }

/-- The globals when `MODE_ADJUST` starts. -/
def adjustStart (objs : List FileObj) : AdjustTable where
  objs := objs.map adjustObj
  realAddrs := objs.map fun o => (adjustObj o).realAddr
  fakeAddrs := objs.map fun o => (adjustObj o).fakeAddr
  objIdx := 0
  objAdjusted := 0
  real_length := by rw [List.length_map, List.length_map]
  fake_eq := by rw [List.map_map, Function.comp_def]

/-- An entry that keeps its address has bytes. -/
theorem adjustObj_realAddr {o : FileObj} (hsize : o.gccGlobalVaridx = 0 → o.size ≠ 0)
    (h : (adjustObj o).realAddr ≠ 0) : (adjustObj o).realAddr = o.realAddr ∧ o.size ≠ 0 := by
  unfold adjustObj at *
  grind

section Start

variable {payload : Nat} {objs : List FileObj} {realAddr i : Nat}

/-- Where an entry of a previewed table has its object, if it has one. -/
theorem adjustStart_placed (hfresh : ∀ o ∈ objs, o.realAddr = 0)
    (hsize : ∀ o ∈ objs, o.gccGlobalVaridx = 0 → o.size ≠ 0)
    (hsum : (objs.map FileObj.size).sum < 2 ^ 32)
    (hfit : payload + (objs.map FileObj.size).sum < 2 ^ 48) (hne : realAddr ≠ 0)
    (h : (adjustStart (fixObjs payload none objs)).realAddrs[i]? = some realAddr) :
    ∃ hi : i < objs.length,
      payload + startOf (objs.map FileObj.size) i = realAddr ∧ 0 < objs[i].size := by
  obtain ⟨hlen, -⟩ := List.getElem?_eq_some_iff.mp h
  have hi' : i < (fixObjs payload none objs).length := by simpa [adjustStart] using hlen
  have hi : i < objs.length := by simpa using hi'
  have hentry := fixObjs_getElem payload (Or.inl hfresh) hsum i hi hi'
  unfold placeAt at hentry
  rw [if_neg (not_not_intro (hfresh _ (List.getElem_mem hi)))] at hentry
  simp only [adjustStart, List.getElem?_map, List.getElem?_eq_getElem hi', Option.map_some,
    Option.some.injEq] at h
  have hkeeps : (fixObjs payload none objs)[i].gccGlobalVaridx = 0 →
      (fixObjs payload none objs)[i].size ≠ 0 := by
    rw [hentry]
    exact hsize objs[i] (List.getElem_mem hi)
  obtain ⟨haddr, hpos⟩ := adjustObj_realAddr hkeeps (h.trans_ne hne)
  rw [h, hentry] at haddr
  rw [hentry] at hpos
  have hle : startOf (objs.map FileObj.size) i ≤ (objs.map FileObj.size).sum :=
    startOf_le_sum _ i
  refine ⟨hi, ?_, Nat.pos_of_ne_zero hpos⟩
  rw [haddr]
  exact (Nat.mod_eq_of_lt (by omega)).symm

/-- A previewed table has no two entries at one address: objects that have bytes start at different
    places of the payload. -/
theorem adjustStart_realUnique (hfresh : ∀ o ∈ objs, o.realAddr = 0)
    (hsize : ∀ o ∈ objs, o.gccGlobalVaridx = 0 → o.size ≠ 0)
    (hsum : (objs.map FileObj.size).sum < 2 ^ 32)
    (hfit : payload + (objs.map FileObj.size).sum < 2 ^ 48) (hne : realAddr ≠ 0) :
    (adjustStart (fixObjs payload none objs)).RealUnique realAddr := by
  have hplace := fun {i} => adjustStart_placed (i := i) hfresh hsize hsum hfit hne
  have hapart : ∀ i j (hi : i < objs.length), i < j → 0 < objs[i].size →
      startOf (objs.map FileObj.size) i ≠ startOf (objs.map FileObj.size) j := by
    intro i j hi hij hpos
    have hlen : i < (objs.map FileObj.size).length := by
      rw [List.length_map]
      exact hi
    have hpast := startOf_add_le hlen hij
    rw [List.getElem_map] at hpast
    omega
  intro i j hi hj
  obtain ⟨hli, hsi, hposi⟩ := hplace hi
  obtain ⟨hlj, hsj, hposj⟩ := hplace hj
  rcases Nat.lt_trichotomy i j with hlt | heq | hgt
  · exact absurd (by omega) (hapart i j hli hlt hposi)
  · exact heq
  · exact absurd (by omega) (hapart j i hlj hgt hposj)

end Start

/-! ## Large tables -/

section Large

/-- Where the reversed scan of a large table starts.  The number is not to be counted out. -/
@[irreducible]
def firstPart : Nat := MAX_OBJS_PER_FILE / 8

theorem firstPart_eq : firstPart = MAX_OBJS_PER_FILE / 8 := by
  unfold firstPart
  rfl

/-- A large table: an entry for each object of 8 bytes, and a global that is the first of them. -/
def largeTable : AdjustTable where
  objs := (List.range (firstPart + 1)).map (fun i => { FileObj.zero with
      fakeAddr := 16 * (i + 1), realAddr := 4096 + 8 * i, size := 8, isAdjusted := false }) ++
    [{ FileObj.zero with fakeAddr := 16, gccGlobalVaridx := 1, isAdjusted := false }]
  realAddrs := (List.range (firstPart + 1)).map (fun i => 4096 + 8 * i) ++ [0]
  fakeAddrs := (List.range (firstPart + 1)).map (fun i => 16 * (i + 1)) ++ [16]
  objIdx := 0
  objAdjusted := 0
  real_length := by simp
  fake_eq := by simp

theorem largeTable_obj {i : Nat} (hi : i < firstPart + 1) :
    largeTable.objs[i]? = some { FileObj.zero with
      fakeAddr := 16 * (i + 1), realAddr := 4096 + 8 * i, size := 8, isAdjusted := false } := by
  unfold largeTable
  rw [List.getElem?_append_left (by simpa using hi)]
  simp [hi]

theorem largeTable_real {i : Nat} (hi : i < firstPart + 1) :
    largeTable.realAddrs[i]? = some (4096 + 8 * i) := by
  unfold largeTable
  rw [List.getElem?_append_left (by simpa using hi)]
  simp [hi]

/-- An entry of the large table with an address is one of the objects. -/
theorem largeTable_placed {i : Nat} {o : AdjustObj} (ho : largeTable.objs[i]? = some o)
    (hreal : o.realAddr ≠ 0) : i < firstPart + 1 := by
  by_contra hno
  unfold largeTable at ho
  rw [List.getElem?_append_right (by simpa using hno)] at ho
  obtain rfl := List.mem_singleton.mp (List.mem_of_getElem? ho)
  exact hreal rfl

theorem largeTable_fakeUnique : largeTable.FakeUnique := by
  intro i hi j hj hri hrj hfake
  have hi' := largeTable_placed (List.getElem?_eq_getElem hi) hri
  have hj' := largeTable_placed (List.getElem?_eq_getElem hj) hrj
  have hoi := largeTable_obj hi'
  have hoj := largeTable_obj hj'
  rw [List.getElem?_eq_getElem hi] at hoi
  rw [List.getElem?_eq_getElem hj] at hoj
  rw [Option.some.inj hoi, Option.some.inj hoj] at hfake
  simp only at hfake
  omega

theorem largeTable_realUnique (i : Nat) : largeTable.RealUnique (4096 + 8 * i) := by
  have hone : ∀ {j : Nat}, largeTable.realAddrs[j]? = some (4096 + 8 * i) → j = i := by
    intro j hj
    rcases Nat.lt_or_ge j (firstPart + 1) with hlt | hge
    · have := Option.some.inj (hj.symm.trans (largeTable_real hlt))
      omega
    · unfold largeTable at hj
      rw [List.getElem?_append_right (by simpa using hge)] at hj
      have := List.mem_singleton.mp (List.mem_of_getElem? hj)
      omega
  exact fun j k hj hk => (hone hj).trans (hone hk).symm

/-- The reversed scan begins with the last object and the global; it finds the last object at once,
    and the first one only behind the global, which has no address. -/
theorem lookups_reverse_large :
    largeTable.getRealAddr 16 true = (4096, true) ∧
      largeTable.objOf (16 * (firstPart + 1)) true = some firstPart ∧
      largeTable.isObjCheckedAdjust (4096 + 8 * firstPart) true =
        some (false, { largeTable with objIdx := firstPart }.setAdjusted firstPart) := by
  have hlast : firstPart < firstPart + 1 := Nat.lt_add_one _
  have hfirst := AdjustTable.lookups_reverse largeTable largeTable_fakeUnique 16 true
  have hfake := AdjustTable.lookups_reverse largeTable largeTable_fakeUnique
    (16 * (firstPart + 1)) true
  have hreal := AdjustTable.lookups_reverse largeTable largeTable_fakeUnique
    (4096 + 8 * firstPart) true
  exact ⟨(hfirst.1 0 _ (largeTable_obj (Nat.succ_pos _)) rfl (by decide)).2 (by decide),
    (hfake.1 firstPart _ (largeTable_obj hlast) rfl (by simp)).1,
    hreal.2.2.1 firstPart _ (largeTable_realUnique firstPart) (largeTable_real hlast)
      (largeTable_obj hlast)⟩

/-- A large table in which the last object of the first part has no bytes, so that the next one is
    at its address. -/
def emptyObjectTable : AdjustTable where
  objs := (List.range (firstPart + 1)).map fun i => { FileObj.zero with
    fakeAddr := 16 * (i + 1), realAddr := 4096 + 8 * min i (firstPart - 1)
    size := if i = firstPart - 1 then 0 else 8, isAdjusted := false }
  realAddrs := (List.range (firstPart + 1)).map fun i => 4096 + 8 * min i (firstPart - 1)
  fakeAddrs := (List.range (firstPart + 1)).map fun i => 16 * (i + 1)
  objIdx := 0
  objAdjusted := 0
  real_length := by simp
  fake_eq := by simp

theorem emptyObjectTable_fakeUnique : emptyObjectTable.FakeUnique := by
  intro i hi j hj _ _ hfake
  simp only [emptyObjectTable, List.getElem_map, List.getElem_range] at hfake
  omega

/-- Where the last entry of the first part and the next one match, the scans stop at different
    ones. -/
theorem scan_across {p : Nat → Bool}
    (hp : ∀ i < firstPart + 1, p i = decide (firstPart - 1 ≤ i)) :
    scan p (firstPart + 1) true = some firstPart ∧
      scan p (firstPart + 1) false = some (firstPart - 1) := by
  have hpos : 0 < firstPart := by
    rw [firstPart_eq]
    decide
  have hhigh : scanFrom p firstPart (firstPart + 1) = some firstPart := by
    unfold scanFrom
    rw [List.find?_range'_eq_some, List.mem_range'_1]
    refine ⟨?_, by omega, fun j hj hlt => by omega⟩
    rw [hp _ (Nat.lt_add_one _)]
    exact decide_eq_true (Nat.sub_le ..)
  constructor
  · unfold scan
    rw [← firstPart_eq, if_pos ⟨rfl, Nat.lt_add_one _⟩, hhigh]
  · unfold scan scanFrom
    rw [if_neg (fun h => Bool.false_ne_true h.1), List.find?_range'_eq_some, List.mem_range'_1]
    refine ⟨?_, by omega, fun j _ hlt => ?_⟩
    · rw [hp _ (by omega)]
      exact decide_eq_true (Nat.le_refl _)
    · rw [hp j (by omega), decide_eq_false (by omega)]
      rfl

theorem emptyObjectTable_length : emptyObjectTable.objs.length = firstPart + 1 := by
  simp [emptyObjectTable]

/-- The entries with the address of the object without bytes: that object and the next one. -/
theorem emptyObjectTable_matches (i : Nat) (hi : i < firstPart + 1) :
    (emptyObjectTable.realAddrs[i]? == some (4096 + 8 * (firstPart - 1))) =
      decide (firstPart - 1 ≤ i) := by
  have hget : emptyObjectTable.realAddrs[i]? = some (4096 + 8 * min i (firstPart - 1)) := by
    simp [emptyObjectTable, hi]
  rw [hget, Bool.eq_iff_iff, beq_iff_eq, Option.some_inj, decide_eq_true_eq]
  omega

/-- **By that address** the scan from the first entry on finds the object without bytes, and the
    reversed one the next object. -/
theorem empty_object_found_twice : emptyObjectTable.FakeUnique ∧
    emptyObjectTable.isObjCheckedAdjust (4096 + 8 * (firstPart - 1)) true ≠
      emptyObjectTable.isObjCheckedAdjust (4096 + 8 * (firstPart - 1)) false := by
  obtain ⟨hrev, hfwd⟩ := scan_across emptyObjectTable_matches
  rw [← emptyObjectTable_length] at hrev hfwd
  refine ⟨emptyObjectTable_fakeUnique, fun heq => ?_⟩
  have hidx := congrArg (Option.map fun r => r.2.objIdx) heq
  rw [AdjustTable.isObjChecked_objIdx, AdjustTable.isObjChecked_objIdx, hrev, hfwd] at hidx
  have heq' : firstPart = firstPart - 1 := Option.some.inj hidx
  have hpos : 0 < firstPart := by
    rw [firstPart_eq]
    decide
  omega

end Large

end Srcinv.Analysis
