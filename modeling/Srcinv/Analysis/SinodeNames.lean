import Mathlib.Order.Basic
import Srcinv.Analysis.Getbase

/-!
# What every run of the base phase keeps

Whatever is replaced, a sinode keeps its name and its tree, so the trees stay sorted by name.
That is enough for a replacement to meet a sinode of the name whenever the search found one.

* `storeBase_step` — sinodes stay in the tree of their type, their flags stay 0 or -1, and the
  names stay in order, over every step.
* `insert_cases` — an insertion links the new sinode by its key, or exchanges the data of the
  first sinode of its name.
-/

namespace Srcinv.Analysis

open Srcinv.Lib

variable {st st' : SinodeStore} {Z : NodeSizes} {R : Recolor} {src src' : BaseSrc} {e : BaseEvent}

/-! ## Searching -/

/-- The walk that looks for the key of a sinode. -/
def keyWalk (st : SinodeStore) (s : Sinode) : Nat → Ordering :=
  match s.type with
  | .file => cmpName st s.name
  | .funcGlobal | .varGlobal => cmpNameResfile st s.buf.rf s.name
  | .type | .funcStatic | .varStatic => cmpNameLoc st s.locFile s.locLine s.locCol s.name

/-- Each walk compares the names first. -/
theorem keyWalk_name (st : SinodeStore) (s : Sinode) (p : Nat) :
    ∃ o, keyWalk st s p = (compare (st.sn p).name s.name).then o := by
  cases hty : s.type with
  | file =>
    simp only [keyWalk, hty]
    exact ⟨.eq, Ordering.then_eq.symm⟩
  | funcGlobal | varGlobal | type | funcStatic | varStatic =>
    simp only [keyWalk, hty]
    exact ⟨_, rfl⟩

/-- A search takes what the walk by its own key finds. -/
theorem sinodeSearch_own {s : Sinode} {p : Nat}
    (h : (st.trees s.type).find (keyWalk st s) = some p) : sinodeSearch st s = some p := by
  cases hty : s.type <;>
  simp only [keyWalk, hty] at h <;>
  simp only [sinodeSearch, sinodeSearchFile, sinodeSearchNameLoc, sinodeSearchNameResfile, hty, h]

/-- What a search returns is in the tree and has the name. -/
theorem sinodeSearch_mem {s : Sinode} {p : Nat} (h : sinodeSearch st s = some p) :
    p ∈ (st.trees s.type).toList ∧ (st.sn p).name = s.name := by
  have hname : ∀ {o : Ordering}, (compare (st.sn p).name s.name).then o = .eq →
      (st.sn p).name = s.name := fun h => Std.LawfulEqCmp.eq_of_compare (Ordering.then_eq_eq.mp h).1
  have hres : sinodeSearchNameResfile st s.type s.buf.rf st.builtin s.name = some p →
      p ∈ (st.trees s.type).toList ∧ (st.sn p).name = s.name := by
    intro h
    unfold sinodeSearchNameResfile at h
    split at h
    · rename_i hfind
      cases h
      exact ⟨(SearchTree.find_some hfind).1, hname (SearchTree.find_some hfind).2⟩
    split at h
    · cases h
    split at h
    · cases h
    · exact ⟨(SearchTree.find_some h).1, hname (SearchTree.find_some h).2⟩
  cases hty : s.type with
  | file =>
    simp only [sinodeSearch, sinodeSearchFile, hty] at h
    exact ⟨(SearchTree.find_some h).1, Std.LawfulEqCmp.eq_of_compare (SearchTree.find_some h).2⟩
  | funcGlobal | varGlobal =>
    simp only [hty, sinodeSearch] at h hres
    exact hres h
  | type | funcStatic | varStatic =>
    simp only [sinodeSearch, sinodeSearchNameLoc, hty] at h
    exact ⟨(SearchTree.find_some h).1, hname (SearchTree.find_some h).2⟩

/-! ## Inserting -/

theorem alloc_self (st : SinodeStore) (s : Sinode) : (st.alloc s).sn st.next = s :=
  Function.update_self ..

theorem alloc_inserted (st : SinodeStore) (s : Sinode) :
    (st.alloc s).inserted = st.inserted := rfl

theorem alloc_of_lt (s : Sinode) {p : Nat} (h : p < st.next) : (st.alloc s).sn p = st.sn p :=
  Function.update_of_ne (Nat.ne_of_lt h) ..

/-- An insertion that does not replace walks by the key of the new sinode. -/
theorem sinodeInsert_none {p : Nat} (h : sinodeInsert st R p .none = some st') :
    linkNode st R (keyWalk st (st.sn p)) p = some st' := by
  unfold keyWalk
  cases hty : (st.sn p).type with
  | file => simpa only [sinodeInsert, sinodeInsertFile, hty] using h
  | funcGlobal | varGlobal => simpa only [sinodeInsert, sinodeInsertNameResfile, hty] using h
  | type | funcStatic | varStatic =>
    simp only [sinodeInsert, sinodeInsertNameLoc, hty] at h
    split at h
    · cases h
    · exact h

/-- What linking a sinode does to the members of the trees. -/
theorem mem_linkNode {p : Nat} {probe : Nat → Ordering} (h : linkNode st R probe p = some st')
    (ty : SinodeType) (a : Nat) : a ∈ (st'.trees ty).toList ↔
      (ty = (st.sn p).type ∧ a = p) ∨ a ∈ (st.trees ty).toList := by
  obtain ⟨t, hlink, rfl⟩ := Option.map_eq_some_iff.mp h
  simp only [Function.update_apply]
  split
  · rename_i hty
    rw [R.toList_run, SearchTree.mem_link hlink, hty]
    simp
  · rename_i hty
    simp [hty]

/-- Linking changes nothing but the tree of the sinode. -/
theorem linkNode_sn {p : Nat} {probe : Nat → Ordering} (h : linkNode st R probe p = some st') :
    st'.sn = st.sn ∧ st'.next = st.next ∧ st'.builtin = st.builtin ∧
      st'.inserted = st.sn p :: st.inserted := by
  obtain ⟨t, hlink, rfl⟩ := Option.map_eq_some_iff.mp h
  exact ⟨rfl, rfl, rfl, rfl⟩

/-- A tree keeps each order that agrees with the walk. -/
theorem order_linkNode {p : Nat} {probe : Nat → Ordering} {r : Nat → Nat → Prop}
    (h : linkNode st R probe p = some st') {ty : SinodeType}
    (hgt : ∀ a ∈ (st.trees ty).toList, probe a = .gt → r p a)
    (hlt : ∀ a ∈ (st.trees ty).toList, probe a = .lt → r a p)
    (htrans : ∀ a b c, r a b → r b c → r a c) (ht : (st.trees ty).toList.Pairwise r) :
    (st'.trees ty).toList.Pairwise r := by
  obtain ⟨t, hlink, rfl⟩ := Option.map_eq_some_iff.mp h
  simp only [Function.update_apply]
  split
  · rename_i hty
    subst hty
    rw [R.toList_run]
    exact SearchTree.link_order hgt hlt htrans ht hlink
  · exact ht

/-- What a replacement by a new sinode leaves behind each older pointer. -/
theorem replace_sn (s : Sinode) {p q : Nat} (hp : p < st.next) :
    (sinodeInsertDoReplace (st.alloc s) q st.next).sn p =
      if p = q then { st.sn q with toSinodeData := s.toSinodeData } else st.sn p := by
  simp only [sinodeInsertDoReplace, alloc_self]
  rw [Function.update_of_ne (Nat.ne_of_lt hp), Function.update_apply]
  split
  · rename_i hpq
    rw [← hpq, alloc_of_lt s hp]
  · exact alloc_of_lt s hp

/-! ## The invariant -/

/-- What no insertion can break. -/
structure StoreBase (st : SinodeStore) : Prop where
  typed : ∀ ty, ∀ p ∈ (st.trees ty).toList, (st.sn p).type = ty ∧ p < st.next
  flag : ∀ p, (st.sn p).weakFlag = 0 ∨ (st.sn p).weakFlag = -1
  named : ∀ ty, (st.trees ty).toList.Pairwise fun a b =>
    (compare (st.sn a).name (st.sn b).name).isLE

/-- A walk by name ascends along a tree. -/
theorem StoreBase.ascends (hb : StoreBase st) (ty : SinodeType) (name : Name) :
    SearchTree.Ascends (cmpName st name) (st.trees ty).toList := by
  refine List.Pairwise.imp (fun {a b} hle => ⟨fun hgt => ?_, fun hlt => ?_⟩) (hb.named ty)
  · exact Std.OrientedCmp.gt_of_lt
      (Std.TransCmp.lt_of_lt_of_isLE (Std.OrientedCmp.lt_of_gt hgt) hle)
  · exact Std.TransCmp.lt_of_isLE_of_lt hle hlt

/-- The walk of a replacement meets a sinode of the name when there is one. -/
theorem StoreBase.find_cmpName (hb : StoreBase st) {ty : SinodeType} {name : Name} {p : Nat}
    (hp : p ∈ (st.trees ty).toList) (hname : (st.sn p).name = name) :
    ∃ q, (st.trees ty).find (cmpName st name) = some q := by
  refine SearchTree.find_of_mem (hb.ascends ty name) hp ?_
  rw [cmpName, hname]
  exact Std.ReflCmp.compare_self

/-- A change that leaves type and name of the linked sinodes alone. -/
theorem StoreBase.frame (hb : StoreBase st) (htrees : st'.trees = st.trees)
    (hnext : st.next ≤ st'.next) (hsn : ∀ ty, ∀ p ∈ (st.trees ty).toList,
      (st'.sn p).type = (st.sn p).type ∧ (st'.sn p).name = (st.sn p).name)
    (hflag : ∀ p, (st'.sn p).weakFlag = 0 ∨ (st'.sn p).weakFlag = -1) : StoreBase st' where
  typed ty p hp := by
    rw [htrees] at hp
    obtain ⟨hty, hlt⟩ := hb.typed ty p hp
    exact ⟨(hsn ty p hp).1.trans hty, Nat.lt_of_lt_of_le hlt hnext⟩
  flag := hflag
  named ty := by
    rw [htrees]
    exact List.Pairwise.imp_of_mem
      (fun ha hb hab => by rw [(hsn ty _ ha).2, (hsn ty _ hb).2]; exact hab) (hb.named ty)

theorem StoreBase.alloc (hb : StoreBase st) {s : Sinode}
    (hflag : s.weakFlag = 0 ∨ s.weakFlag = -1) : StoreBase (st.alloc s) := by
  refine hb.frame rfl (Nat.le_succ _) (fun ty p hp => ?_) fun p => ?_
  · rw [alloc_of_lt s (hb.typed ty p hp).2]
    exact ⟨rfl, rfl⟩
  · simp only [SinodeStore.alloc, Function.update_apply]
    split
    · exact hflag
    · exact hb.flag p

/-- Linking a new sinode keeps the names in order. -/
theorem StoreBase.link (hb : StoreBase st) {s : Sinode}
    (hflag : s.weakFlag = 0 ∨ s.weakFlag = -1)
    (h : linkNode (st.alloc s) R (keyWalk (st.alloc s) s) st.next = some st') :
    StoreBase st' := by
  have hba := hb.alloc hflag
  obtain ⟨hsn, hnext, -, -⟩ := linkNode_sn h
  refine ⟨fun ty p hp => ?_, fun p => hsn ▸ hba.flag p, fun ty => ?_⟩
  · rw [hsn, hnext]
    obtain ⟨hty, rfl⟩ | hp := (mem_linkNode h ty p).mp hp
    · exact ⟨hty.symm, Nat.lt_succ_self _⟩
    · exact hba.typed ty p hp
  · rw [hsn]
    refine order_linkNode h (fun a _ hgt => ?_) (fun a _ hlt => ?_)
      (fun a b c => Std.TransCmp.isLE_trans) (hba.named ty)
    · obtain ⟨o, ho⟩ := keyWalk_name (st.alloc s) s a
      rw [ho, Ordering.then_eq_gt] at hgt
      rw [alloc_self]
      obtain hgt | ⟨heq, -⟩ := hgt
      · rw [Std.OrientedCmp.lt_of_gt hgt]
        rfl
      · rw [Std.OrientedCmp.eq_symm heq]
        rfl
    · obtain ⟨o, ho⟩ := keyWalk_name (st.alloc s) s a
      rw [ho, Ordering.then_eq_lt] at hlt
      rw [alloc_self]
      obtain hlt | ⟨heq, -⟩ := hlt
      · rw [hlt]
        rfl
      · rw [heq]
        rfl

theorem StoreBase.replace (hb : StoreBase st) {s : Sinode} {q : Nat}
    (hflag : s.weakFlag = 0 ∨ s.weakFlag = -1) :
    StoreBase (sinodeInsertDoReplace (st.alloc s) q st.next) := by
  refine hb.frame rfl (Nat.le_succ _) (fun ty p hp => ?_) fun p => ?_
  · rw [replace_sn s (hb.typed ty p hp).2]
    split
    · rename_i hpq
      rw [hpq]
      exact ⟨rfl, rfl⟩
    · exact ⟨rfl, rfl⟩
  · simp only [sinodeInsertDoReplace, Function.update_apply, alloc_self]
    split
    · exact hflag
    · split
      · exact (hb.alloc hflag).flag q
      · exact (hb.alloc hflag).flag p

/-- The insertion of a new sinode that replaces. -/
theorem sinodeInsert_replace (hb : StoreBase st) {s : Sinode} {q : Nat}
    (hty : s.type = .funcGlobal ∨ s.type = .varGlobal ∨ s.type = .funcStatic)
    (hq : (st.trees s.type).find (cmpName st s.name) = some q) :
    sinodeInsert (st.alloc s) R st.next .replace =
      if s.type = .funcStatic ∨ s.datalen = (st.sn q).datalen then
        some (sinodeInsertDoReplace (st.alloc s) q st.next)
      else none := by
  have hqlt := (hb.typed _ q (SearchTree.find_some hq).1).2
  have hfind : ((st.alloc s).trees s.type).find (cmpName (st.alloc s) s.name) = some q := by
    rw [← hq]
    exact SearchTree.find_congr fun a ha => by
      rw [cmpName, alloc_of_lt s (hb.typed _ a ha).2, cmpName]
  have hresfile : sinodeInsertNameResfile (st.alloc s) R st.next .replace =
      if s.type = .funcStatic ∨ s.datalen = (st.sn q).datalen then
        some (sinodeInsertDoReplace (st.alloc s) q st.next)
      else none := by
    simp only [sinodeInsertNameResfile, alloc_self, hfind, alloc_of_lt s hqlt]
    by_cases hs : s.type = .funcStatic <;> by_cases hl : s.datalen = (st.sn q).datalen <;>
    simp [hs, hl]
  rw [← hresfile, sinodeInsert, alloc_self]
  obtain hty | hty | hty := hty <;> rw [hty]

/-- **An insertion links by key or exchanges data.** -/
theorem insert_cases (hb : StoreBase st) {s : Sinode} {b : Behavior} {hit : Option Nat}
    (hout : Decided st s (.insert s b hit))
    (h : sinodeInsert (st.alloc s) R st.next b = some st') :
    (b = .none ∧ sinodeSearch st s = none ∧
      linkNode (st.alloc s) R (keyWalk (st.alloc s) s) st.next = some st') ∨
    ∃ p q, b = .replace ∧ hit = some p ∧ sinodeSearch st s = some p ∧
      (st.trees s.type).find (cmpName st s.name) = some q ∧
      (s.type = .funcStatic ∨ s.datalen = (st.sn q).datalen) ∧
      st' = sinodeInsertDoReplace (st.alloc s) q st.next := by
  cases hout with
  | fresh hsearch =>
    have hlink := sinodeInsert_none h
    rw [alloc_self] at hlink
    exact Or.inl ⟨rfl, hsearch, hlink⟩
  | @replaced p hsearch hty =>
    obtain ⟨hmem, hname⟩ := sinodeSearch_mem hsearch
    obtain ⟨q, hq⟩ := hb.find_cmpName hmem hname
    rw [sinodeInsert_replace hb hty hq] at h
    split at h
    · rename_i hlen
      exact Or.inr ⟨p, q, rfl, rfl, hsearch, hq, hlen, (Option.some.inj h).symm⟩
    · cases h

/-! ## The steps -/

/-- Making the sinode of a file. -/
theorem insertFile_link {file : Name}
    (h : sinodeInsert (st.alloc (sinodeNew .file file)) R st.next .none = some st') :
    linkNode (st.alloc (sinodeNew .file file)) R
      (keyWalk (st.alloc (sinodeNew .file file)) (sinodeNew .file file)) st.next = some st' := by
  have hlink := sinodeInsert_none h
  rwa [alloc_self] at hlink

/-- Deciding keeps the invariant. -/
theorem storeBase_planOf (hb : StoreBase src.sinodes) {sn : SinodeStore} {plan : Plan}
    (h : planOf Z R src e = some (sn, plan)) : StoreBase sn := by
  obtain ⟨rfl | ⟨file, hins⟩, -⟩ := planOf_cases hb.flag h
  · exact hb
  · exact hb.link (Or.inl rfl) (insertFile_link hins)

/-- An insertion that the base phase decides on. -/
theorem planOf_insert (hb : StoreBase src.sinodes) {sn : SinodeStore} {s : Sinode} {b : Behavior}
    {hit : Option Nat} (h : planOf Z R src e = some (sn, .insert s b hit)) :
    MadeFrom Z e s ∧ Decided sn s (.insert s b hit) := by
  obtain ⟨-, ⟨-, hplan | ⟨_, _, hplan⟩⟩ | ⟨s', hmade, hout⟩⟩ := planOf_cases hb.flag h
  · cases hplan
  · cases hplan
  · cases hout with
    | fresh hsearch => exact ⟨hmade, .fresh hsearch⟩
    | replaced hsearch hty => exact ⟨hmade, .replaced hsearch hty⟩

/-- Carrying a plan out touches the sinodes only by an insertion. -/
theorem runPlan_cases {buf : Nat} {plan : Plan} {r : Option Registered}
    (h : runPlan R src buf plan = some (src', r)) :
    (src'.sinodes = src.sinodes ∧ ∀ s b hit, plan ≠ .insert s b hit) ∨
      ∃ s b hit, plan = .insert s b hit ∧
        sinodeInsert (src.sinodes.alloc s) R src.sinodes.next b = some src'.sinodes := by
  cases plan with
  | nothing =>
    cases h
    exact Or.inl ⟨rfl, fun _ _ _ hp => by cases hp⟩
  | keep hit =>
    cases h
    exact Or.inl ⟨rfl, fun _ _ _ hp => by cases hp⟩
  | typenode tc addr =>
    refine Or.inl ⟨?_, fun _ _ _ hp => by cases hp⟩
    simp only [runPlan] at h
    split at h
    · cases h
      rfl
    · obtain ⟨_, -, hpair⟩ := Option.map_eq_some_iff.mp h
      cases hpair
      rfl
  | insert s b hit =>
    obtain ⟨_, hins, hpair⟩ := Option.map_eq_some_iff.mp h
    cases hpair
    exact Or.inr ⟨s, b, hit, rfl, hins⟩

/-- What a step does to the sinodes. -/
theorem getbaseNext_cases (h : getbaseNext Z R src e = some src') :
    (∃ sn plan, planOf Z R src e = some (sn, plan) ∧
      ((src'.sinodes = sn ∧ ∀ s b hit, plan ≠ .insert s b hit) ∨ ∃ s b hit,
        plan = .insert s b hit ∧ sinodeInsert (sn.alloc s) R sn.next b = some src'.sinodes)) ∨
    eventDef e = none ∧ ((∃ file, sinodeInsert (src.sinodes.alloc (sinodeNew .file file)) R
        src.sinodes.next .none = some src'.sinodes) ∨
      ∃ builtin, src'.sinodes = { src.sinodes with builtin := builtin }) := by
  obtain ⟨⟨_, r⟩, hstep, rfl⟩ := Option.map_eq_some_iff.mp h
  cases e with
  | gimple buf rf o =>
    simp only [getbaseStep] at hstep
    split at hstep
    · cases hstep
    · rename_i sn plan hplan
      exact Or.inl ⟨sn, plan, hplan, runPlan_cases hstep⟩
  | asmSym buf rf sym =>
    simp only [getbaseStep] at hstep
    split at hstep
    · cases hstep
    · rename_i sn plan hplan
      exact Or.inl ⟨sn, plan, hplan, runPlan_cases hstep⟩
  | asmFile buf srcfile =>
    simp only [getbaseStep] at hstep
    split at hstep
    · cases hstep
      exact Or.inr ⟨rfl, Or.inr ⟨_, rfl⟩⟩
    · obtain ⟨_, hins, hpair⟩ := Option.map_eq_some_iff.mp hstep
      cases hpair
      exact Or.inr ⟨rfl, Or.inl ⟨srcfile, hins⟩⟩
  | addBuiltin rf =>
    cases hstep
    exact Or.inr ⟨rfl, Or.inr ⟨some rf, rfl⟩⟩

/-- A plan that can be carried out is. -/
theorem getbaseNext_of_plan {sn : SinodeStore} {plan : Plan}
    (hplan : planOf Z R src e = some (sn, plan)) :
    ∃ buf, getbaseNext Z R src e =
      (runPlan R { src with sinodes := sn } buf plan).map Prod.fst := by
  cases e with
  | gimple buf rf o => exact ⟨buf, by simp only [getbaseNext, getbaseStep, hplan]⟩
  | asmSym buf rf sym => exact ⟨buf, by simp only [getbaseNext, getbaseStep, hplan]⟩
  | asmFile buf srcfile => cases hplan
  | addBuiltin rf => cases hplan

/-- **Every step keeps types, flags and the order of the names.** -/
theorem storeBase_step (hb : StoreBase src.sinodes) (h : getbaseNext Z R src e = some src') :
    StoreBase src'.sinodes := by
  obtain ⟨sn, plan, hplan, hrun⟩ | ⟨-, ⟨file, hins⟩ | ⟨builtin, hsame⟩⟩ := getbaseNext_cases h
  · have hbsn := storeBase_planOf hb hplan
    obtain ⟨hsame, -⟩ | ⟨s, b, hit, rfl, hins⟩ := hrun
    · rw [hsame]
      exact hbsn
    obtain ⟨hmade, hout⟩ := planOf_insert hb hplan
    obtain ⟨-, -, hlink⟩ | ⟨p, q, -, -, -, -, -, hst⟩ := insert_cases hbsn hout hins
    · exact hbsn.link hmade.flag hlink
    · rw [hst]
      exact hbsn.replace hmade.flag
  · exact hb.link (Or.inl rfl) (insertFile_link hins)
  · rw [hsame]
    exact hb.frame rfl (Nat.le_refl _) (fun _ _ _ => ⟨rfl, rfl⟩) hb.flag

theorem storeBase_empty (builtin : Option Nat) : StoreBase (BaseSrc.empty builtin).sinodes where
  typed _ _ hp := by cases hp
  flag _ := Or.inl rfl
  named _ := List.Pairwise.nil

end Srcinv.Analysis
