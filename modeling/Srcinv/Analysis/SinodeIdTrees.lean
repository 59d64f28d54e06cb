import Mathlib.Data.List.Nodup
import Srcinv.Lib.Run
import Srcinv.Analysis.SinodeIds

/-!
# The trees of ids over whole runs

* `newSinode_repeats` — a counter that has handed out all numbers starts over.
* `ids_exact` — over every order of new and inserted sinodes, ids differ, a search by id and
  `sinode_match` answer the inserted sinodes, and a failed insertion changes no tree, exactly when
  no counter runs out, no insertion meets its key after it has linked the id, and a replacement
  links no sinode.
* `same_file_keeps_id` — a second sinode of a file name is refused but stays in the tree of ids.
-/

namespace Srcinv.Analysis

open Srcinv.Lib

/-! ## Ids that name one sinode -/

/-- Ids differ, and a search by id and `sinode_match` answer the inserted sinodes. -/
structure IdsRight (s : IdStore) : Prop where
  distinct : ∀ p < s.st.next, ∀ q < s.st.next, (s.nodeId p).id1 = (s.nodeId q).id1 → p = q
  search : ∀ id p, (IdType.ofCode id.idType).isSome →
    (sinodeSearchById s id = some p ↔ p ∈ s.inserted ∧ s.nodeId p = id)
  matched : ∀ type, (sinodeMatch s type).Nodup ∧ ∀ p, p ∈ sinodeMatch s type ↔
    p ∈ s.inserted ∧ ∃ ty ∈ matchTypes type, (s.nodeId p).idType = ty.code

/-- A call that returns nonzero changes no tree. -/
def FailedKeeps (R Rid : Recolor) (s : IdStore) (e : IdEvent) : Prop :=
  ∀ s' r, idCall s R Rid e = some (s', r) → r ≠ 0 →
    s'.idTrees = s.idTrees ∧ s'.st.trees = s.st.trees

/-- `sinode_match` goes through a type in some call. -/
def Matchable (ty : IdType) : Prop := ∃ type, ty ∈ matchTypes type

/-- The guard of a call.  A counter has an id left, and keeps one where `sinode_match` reads it.  A
    new sinode meets no sinode of its key, and a replacement meets one of its name. -/
def IdsLast (s : IdStore) : IdEvent → Prop
  | .new ty _ _ => s.issued ty < 2 ^ 28 ∧
      (s.issued ty + 1 = 2 ^ 28 → Matchable ty → ∀ p ∈ s.inserted, (s.nodeId p).idType ≠ ty.code)
  | .insert p .none => p < s.st.next → p ∉ s.inserted →
      ∀ ty, (s.nodeId p).idType = (IdType.spec ty).code → s.named p → hasPlace (s.st.sn p) .none →
        if meets s.st p .none then clashReturns ty .none = false
        else Matchable (.spec ty) → s.issued (.spec ty) < 2 ^ 28
  | .insert p .replace => p < s.st.next → p ∉ s.inserted →
      ∃ ty, (s.nodeId p).idType = (IdType.spec ty).code ∧
        (s.named p → hasPlace (s.st.sn p) .replace → meets s.st p .replace)

variable {st st' : SinodeStore} {R Rid : Recolor} {s s' : IdStore} {ty : IdType} {r : Int}
  {p : Nat} {behavior : Behavior}

/-! ## The invariant -/

/-- The counters stand at the number of ids they have handed out, and the trees of ids hold the
    inserted sinodes. -/
structure IdInv (s : IdStore) : Prop where
  counter : ∀ ty, s.idIdx ty = counterAt ty (s.issued ty)
  bounded : ∀ ty, s.issued ty ≤ 2 ^ 28
  ids : ∀ p < s.st.next, ∃ ty, ∃ v < s.issued ty, s.nodeId p = ty.siid v
  handed : ∀ ty, ∀ v < s.issued ty, ∃ p < s.st.next, s.nodeId p = ty.siid v
  distinct : ∀ p < s.st.next, ∀ q < s.st.next, s.nodeId p = s.nodeId q → p = q
  typed : ∀ p < s.st.next, ∀ t, (s.nodeId p).idType = (IdType.spec t).code → (s.st.sn p).type = t
  sorted : ∀ ty, (s.idTrees ty).Sorted fun p => (s.nodeId p).id1
  members : ∀ ty p, p ∈ (s.idTrees ty).toList ↔ p ∈ s.inserted ∧ (s.nodeId p).idType = ty.code
  inside : ∀ p ∈ s.inserted, p < s.st.next
  unwrapped : ∀ ty, Matchable ty → s.issued ty = 2 ^ 28 →
    ∀ p ∈ s.inserted, (s.nodeId p).idType ≠ ty.code

theorem IdInv.ofCode (hi : IdInv s) (hp : p < s.st.next) :
    ∃ ty, IdType.ofCode (s.nodeId p).idType = some ty ∧ (s.nodeId p).idType = ty.code := by
  obtain ⟨ty, v, -, hid⟩ := hi.ids p hp
  rw [hid]
  exact ⟨ty, IdType.ofCode_code ty, rfl⟩

/-- Changing the sinodes without moving one to another type. -/
theorem IdInv.frame (hi : IdInv s) (hnext : st'.next = s.st.next)
    (htypes : ∀ q, (st'.sn q).type = (s.st.sn q).type) : IdInv { s with st := st' } where
  counter := hi.counter
  bounded := hi.bounded
  ids p hp := hi.ids p (hnext ▸ hp)
  handed ty v hv := by
    show ∃ p < st'.next, _
    rw [hnext]
    exact hi.handed ty v hv
  distinct p hp q hq h := hi.distinct p (hnext ▸ hp) q (hnext ▸ hq) h
  typed p hp t h := (htypes p).trans (hi.typed p (hnext ▸ hp) t h)
  sorted := hi.sorted
  members := hi.members
  inside p hp := hnext ▸ hi.inside p hp
  unwrapped := hi.unwrapped

/-- Inserting a sinode again. -/
theorem IdInv.again (hi : IdInv s) (hp : p ∈ s.inserted) :
    IdInv { s with inserted := p :: s.inserted } := by
  have hmem : ∀ q, q ∈ p :: s.inserted ↔ q ∈ s.inserted := fun q => by
    rw [List.mem_cons]
    constructor
    · rintro (rfl | hq)
      · exact hp
      · exact hq
    · exact Or.inr
  exact { hi with
    members := fun ty q => (hi.members ty q).trans (by
      show _ ↔ q ∈ p :: s.inserted ∧ _
      rw [hmem])
    inside := fun q hq => hi.inside q ((hmem q).mp hq)
    unwrapped := fun ty hm hw q hq => hi.unwrapped ty hm hw q ((hmem q).mp hq) }

/-- The tree of ids refuses exactly the inserted sinodes. -/
theorem sinodeInsertById_none (hi : IdInv s) (hp : p < s.st.next)
    (hty : (s.nodeId p).idType = ty.code) :
    sinodeInsertById s Rid ty p = none ↔ p ∈ s.inserted := by
  unfold sinodeInsertById
  rw [Option.map_eq_none_iff, ← Option.not_isSome_iff_eq_none, SearchTree.link_isSome_iff]
  constructor
  · intro h
    obtain ⟨q, hq⟩ := Option.ne_none_iff_exists'.mp h
    obtain ⟨hmem, heq⟩ := (SearchTree.find_key (hi.sorted ty)).mp hq
    have hins := ((hi.members ty q).mp hmem).1
    have hid := Siid.id1_inj (Std.LawfulEqCmp.eq_of_compare heq)
    rwa [← hi.distinct q (hi.inside q hins) p hp hid]
  · intro h hfind
    have hmem := (hi.members ty p).mpr ⟨h, hty⟩
    have hfound := (SearchTree.find_key (hi.sorted ty)).mpr ⟨hmem, Std.ReflCmp.compare_self⟩
    have hnone : (s.idTrees ty).find (fun q => compare (s.nodeId q).id1 (s.nodeId p).id1) = none :=
      hfind
    rw [hnone] at hfound
    cases hfound

/-- Linking the id of a sinode inserts it. -/
theorem IdInv.link (hi : IdInv s) (hp : p < s.st.next) (hty : (s.nodeId p).idType = ty.code)
    (hwrap : Matchable ty → s.issued ty < 2 ^ 28) (h : sinodeInsertById s Rid ty p = some s') :
    IdInv { s' with inserted := p :: s.inserted } := by
  obtain ⟨t, hlink, rfl⟩ := Option.map_eq_some_iff.mp h
  refine { hi with sorted := ?_, members := ?_, inside := ?_, unwrapped := ?_ }
  · intro ty'
    simp only [Function.update_apply]
    split
    · rename_i hty'
      subst hty'
      unfold SearchTree.Sorted
      rw [Rid.toList_run]
      exact SearchTree.link_key (hi.sorted ty') hlink
    · exact hi.sorted ty'
  · intro ty' q
    simp only [Function.update_apply, List.mem_cons]
    split
    · rename_i hty'
      subst hty'
      rw [Rid.toList_run, SearchTree.mem_link hlink, hi.members]
      constructor
      · rintro (rfl | ⟨hq, hqty⟩)
        · exact ⟨Or.inl rfl, hty⟩
        · exact ⟨Or.inr hq, hqty⟩
      · rintro ⟨rfl | hq, hqty⟩
        · exact Or.inl rfl
        · exact Or.inr ⟨hq, hqty⟩
    · rename_i hty'
      rw [hi.members]
      constructor
      · exact fun ⟨hq, hqty⟩ => ⟨Or.inr hq, hqty⟩
      · rintro ⟨rfl | hq, hqty⟩
        · exact absurd (IdType.code_inj (hqty.symm.trans hty)) hty'
        · exact ⟨hq, hqty⟩
  · intro q hq
    obtain rfl | hq := List.mem_cons.mp hq
    · exact hp
    · exact hi.inside q hq
  · intro ty' hm hw q hq
    obtain rfl | hq := List.mem_cons.mp hq
    · intro hqty
      obtain rfl := IdType.code_inj (hqty.symm.trans hty)
      exact absurd hw (Nat.ne_of_lt (hwrap hm))
    · exact hi.unwrapped ty' hm hw q hq

/-- What `sinode_new` does when its counter stands right. -/
theorem newSinode_eq (hi : IdInv s) (ty : IdType) (name : Option Name) (data : SinodeData) :
    ∃ sn, newSinode s ty name data = some { s with
        st := s.st.alloc sn
        named := Function.update s.named s.st.next name.isSome
        nodeId := Function.update s.nodeId s.st.next (ty.siid (s.issued ty))
        idIdx := Function.update s.idIdx ty (counterAt ty (s.issued ty + 1))
        issued := Function.update s.issued ty (s.issued ty + 1) } ∧
      ∀ t, ty = .spec t → sn.type = t := by
  unfold newSinode
  rw [hi.counter, sinodeId_counterAt]
  refine ⟨_, rfl, ?_⟩
  rintro t rfl
  rfl

/-- The next id of a type that has one left was not handed out before. -/
theorem IdInv.fresh (hi : IdInv s) (hp : p < s.st.next) (hlt : s.issued ty < 2 ^ 28) :
    s.nodeId p ≠ ty.siid (s.issued ty) := by
  intro heq
  obtain ⟨ty', v, hv, hid⟩ := hi.ids p hp
  obtain ⟨rfl, rfl⟩ := IdType.siid_inj (Nat.lt_of_lt_of_le hv (hi.bounded ty')) hlt
    (hid.symm.trans heq)
  exact Nat.lt_irrefl _ hv

/-- A value that is new keeps the others apart. -/
theorem update_distinct {β : Type} {f : Nat → β} {n : Nat} {b : β}
    (hf : ∀ p < n, ∀ q < n, f p = f q → p = q) (hb : ∀ p < n, f p ≠ b) :
    ∀ p < n + 1, ∀ q < n + 1, Function.update f n b p = Function.update f n b q → p = q := by
  have hold : ∀ p < n, Function.update f n b p = f p := fun p hp =>
    Function.update_of_ne (Nat.ne_of_lt hp) ..
  intro p hp q hq heq
  obtain hp | rfl := Nat.lt_succ_iff_lt_or_eq.mp hp
  · rw [hold p hp] at heq
    obtain hq | rfl := Nat.lt_succ_iff_lt_or_eq.mp hq
    · rw [hold q hq] at heq
      exact hf p hp q hq heq
    · rw [Function.update_self] at heq
      exact absurd heq (hb p hp)
  · rw [Function.update_self] at heq
    obtain hq | rfl := Nat.lt_succ_iff_lt_or_eq.mp hq
    · rw [hold q hq] at heq
      exact absurd heq.symm (hb q hq)
    · rfl

/-- **A new sinode keeps the invariant while its counter has an id left.** -/
theorem IdInv.new (hi : IdInv s) {name : Option Name} {data : SinodeData}
    (hg : IdsLast s (.new ty name data)) (h : newSinode s ty name data = some s') : IdInv s' := by
  obtain ⟨sn, hnew, hsn⟩ := newSinode_eq hi ty name data
  rw [hnew] at h
  cases h
  obtain ⟨hlt, hwrap⟩ := hg
  have hold : ∀ p < s.st.next, Function.update s.nodeId s.st.next (ty.siid (s.issued ty)) p =
      s.nodeId p := fun p hp => Function.update_of_ne (Nat.ne_of_lt hp) ..
  have hself : Function.update s.nodeId s.st.next (ty.siid (s.issued ty)) s.st.next =
      ty.siid (s.issued ty) := Function.update_self ..
  have hgrow : ∀ ty', s.issued ty' ≤ Function.update s.issued ty (s.issued ty + 1) ty' := by
    intro ty'
    simp only [Function.update_apply]
    split
    · rename_i hty
      rw [hty]
      exact Nat.le_succ _
    · exact Nat.le_refl _
  refine {
    counter := ?_, bounded := ?_, ids := ?_, handed := ?_, distinct := ?_, typed := ?_
    sorted := ?_, members := ?_, inside := fun q hq => Nat.lt_succ_of_lt (hi.inside q hq)
    unwrapped := ?_ }
  · intro ty'
    simp only [Function.update_apply]
    split
    · rename_i hty
      rw [hty]
    · exact hi.counter ty'
  · intro ty'
    simp only [Function.update_apply]
    split
    · exact hlt
    · exact hi.bounded ty'
  · intro p hp
    obtain hp | rfl := Nat.lt_succ_iff_lt_or_eq.mp hp
    · obtain ⟨ty', v, hv, hid⟩ := hi.ids p hp
      exact ⟨ty', v, Nat.lt_of_lt_of_le hv (hgrow ty'), (hold p hp).trans hid⟩
    · refine ⟨ty, s.issued ty, ?_, hself⟩
      simp
  · intro ty' v hv
    simp only [Function.update_apply] at hv
    have hbefore : v < s.issued ty' → ∃ p < s.st.next + 1,
        Function.update s.nodeId s.st.next (ty.siid (s.issued ty)) p = ty'.siid v := by
      intro hv
      obtain ⟨p, hp, hid⟩ := hi.handed ty' v hv
      exact ⟨p, Nat.lt_succ_of_lt hp, (hold p hp).trans hid⟩
    split at hv
    · rename_i hty
      subst hty
      obtain hv | rfl := Nat.lt_succ_iff_lt_or_eq.mp hv
      · exact hbefore hv
      · exact ⟨s.st.next, Nat.lt_succ_self _, hself⟩
    · exact hbefore hv
  · exact update_distinct hi.distinct fun p hp => hi.fresh hp hlt
  · intro p hp t hty
    simp only at hty
    obtain hp | rfl := Nat.lt_succ_iff_lt_or_eq.mp hp
    · rw [hold p hp] at hty
      show ((s.st.alloc sn).sn p).type = t
      rw [alloc_of_lt sn hp]
      exact hi.typed p hp t hty
    · rw [hself] at hty
      show ((s.st.alloc sn).sn s.st.next).type = t
      rw [alloc_self]
      exact hsn t (IdType.code_inj hty)
  · intro ty'
    refine SearchTree.sorted_congr rfl (fun q hq => ?_) (hi.sorted ty')
    exact congrArg (fun id => id.id1) (hold q (hi.inside q ((hi.members ty' q).mp hq).1))
  · intro ty' q
    rw [hi.members]
    refine and_congr_right fun hq => ?_
    simp only
    rw [hold q (hi.inside q hq)]
  · intro ty' hm hw q hq
    simp only [Function.update_apply] at hw
    show (Function.update s.nodeId s.st.next (ty.siid (s.issued ty)) q).idType ≠ _
    rw [hold q (hi.inside q hq)]
    split at hw
    · rename_i hty
      subst hty
      exact hwrap hw hm q hq
    · exact hi.unwrapped ty' hm hw q hq

theorem not_matchable_codep : ¬ Matchable .codep := by
  rintro ⟨type, h⟩
  unfold matchTypes at h
  split at h <;> simp at h

theorem replacesByName_none (t : SinodeType) : replacesByName t .none = false := by
  cases t <;> rfl

/-- **A guarded insertion keeps the invariant, and changes no tree when it fails.** -/
theorem IdInv.insert (hi : IdInv s) (hp : p < s.st.next) (hg : IdsLast s (.insert p behavior))
    (h : sinodeInsertId s R Rid p behavior = some (s', r)) :
    IdInv s' ∧ (r ≠ 0 → s'.idTrees = s.idTrees ∧ s'.st.trees = s.st.trees) := by
  obtain ⟨ty, hof, hty⟩ := hi.ofCode hp
  unfold sinodeInsertId at h
  rw [hof] at h
  cases behavior with
  | none =>
    simp only at h
    split at h
    · cases h
      exact ⟨hi, fun _ => ⟨rfl, rfl⟩⟩
    rename_i s₁ hid
    have hnot : p ∉ s.inserted := fun hins => by
      rw [(sinodeInsertById_none hi hp hty).mpr hins] at hid
      cases hid
    have hsame : s₁.st = s.st ∧ s₁.named = s.named ∧ s₁.inserted = s.inserted := by
      obtain ⟨t, -, rfl⟩ := Option.map_eq_some_iff.mp hid
      exact ⟨rfl, rfl, rfl⟩
    cases ty with
    | codep =>
      cases h
      refine ⟨?_, fun hr => absurd rfl hr⟩
      have hlink := hi.link hp hty (fun hm => absurd hm not_matchable_codep) hid
      rwa [← hsame.2.2] at hlink
    | spec t =>
      have htype := hi.typed p hp t hty
      obtain ⟨hnamed, hplace, hends⟩ := sinodeInsertSpec_cases h
      rw [hsame.1] at hplace hends
      rw [hsame.2.1] at hnamed
      have hguard := hg hp hnot t hty hnamed hplace
      obtain ⟨-, -, hmeets, -, hclash⟩ | ⟨st', hins, rfl, ⟨-, -, hname⟩ | ⟨rfl, hmeets⟩⟩ := hends
      · rw [if_pos hmeets, ← htype, hclash] at hguard
        cases hguard
      · rw [replacesByName_none] at hname
        cases hname
      · refine ⟨?_, fun hr => absurd rfl hr⟩
        simp only [hmeets, Bool.false_eq_true, if_false] at hguard
        have hlink := hi.link hp hty hguard hid
        rw [← hsame.2.2] at hlink
        obtain ⟨hnext, htypes⟩ := sinodeInsert_types hins
        rw [← hsame.1] at hnext htypes
        exact hlink.frame hnext htypes
  | replace =>
    simp only at h
    by_cases hins : p ∈ s.inserted
    · -- inserting a sinode that is inserted changes nothing the ids depend on
      cases ty with
      | codep =>
        cases h
        exact ⟨hi.again hins, fun hr => absurd rfl hr⟩
      | spec t =>
        obtain ⟨-, -, hends⟩ := sinodeInsertSpec_cases h
        obtain ⟨-, rfl, -⟩ | ⟨st', hst, rfl, ⟨rfl, -⟩ | ⟨rfl, -⟩⟩ := hends
        · exact ⟨hi, fun _ => ⟨rfl, rfl⟩⟩
        · obtain ⟨hnext, htypes⟩ := sinodeInsert_types hst
          exact ⟨hi.frame hnext htypes, fun hr => absurd rfl hr⟩
        · obtain ⟨hnext, htypes⟩ := sinodeInsert_types hst
          exact ⟨(hi.again hins).frame hnext htypes, fun hr => absurd rfl hr⟩
    · obtain ⟨t, hspec, hmeet⟩ := hg hp hins
      obtain rfl := IdType.code_inj (hty.symm.trans hspec)
      obtain ⟨hnamed, hplace, hends⟩ := sinodeInsertSpec_cases h
      obtain ⟨-, rfl, -⟩ | ⟨st', hst, rfl, ⟨rfl, -⟩ | ⟨rfl, hmeets⟩⟩ := hends
      · exact ⟨hi, fun _ => ⟨rfl, rfl⟩⟩
      · obtain ⟨hnext, htypes⟩ := sinodeInsert_types hst
        exact ⟨hi.frame hnext htypes, fun hr => absurd rfl hr⟩
      · rw [hmeet hnamed hplace] at hmeets
        cases hmeets

/-- **A guarded call keeps the invariant, and changes no tree when it fails.** -/
theorem idCall_keeps (hi : IdInv s) {e : IdEvent} (hg : IdsLast s e)
    (h : idCall s R Rid e = some (s', r)) :
    IdInv s' ∧ (r ≠ 0 → s'.idTrees = s.idTrees ∧ s'.st.trees = s.st.trees) := by
  cases e with
  | new ty name data =>
    obtain ⟨s₁, hnew, heq⟩ := Option.map_eq_some_iff.mp h
    cases heq
    exact ⟨hi.new hg hnew, fun hr => absurd rfl hr⟩
  | insert p behavior =>
    simp only [idCall] at h
    split at h
    · rename_i hp
      exact hi.insert hp hg h
    · cases h

/-! ## Searching and matching -/

theorem search_iff (hi : IdInv s) {id : Siid} (hof : IdType.ofCode id.idType = some ty) (p : Nat) :
    sinodeSearchById s id = some p ↔ p ∈ s.inserted ∧ s.nodeId p = id := by
  have hfind : sinodeSearchById s id = (s.idTrees ty).find (cmpId s id) := by
    simp only [sinodeSearchById, hof]
  have hkey : (s.idTrees ty).find (cmpId s id) = some p ↔ _ := SearchTree.find_key (hi.sorted ty)
  rw [hfind, hkey, hi.members]
  constructor
  · rintro ⟨⟨hins, -⟩, heq⟩
    exact ⟨hins, Siid.id1_inj (Std.LawfulEqCmp.eq_of_compare heq)⟩
  · rintro ⟨hins, rfl⟩
    exact ⟨⟨hins, (IdType.code_ofCode hof).symm⟩, Std.ReflCmp.compare_self⟩

/-- The ids that `__sinode_match` looks up. -/
theorem mem_matchIds (hi : IdInv s) (hlt : s.issued ty < 2 ^ 28) (id : Nat) :
    id ∈ List.range' (ty.code * 2 ^ 28) ((s.idIdx ty).id1 - ty.code * 2 ^ 28) ↔
      ∃ v < s.issued ty, id = (ty.siid v).id1 := by
  have hcount : (s.idIdx ty).id1 - ty.code * 2 ^ 28 = s.issued ty := by
    rw [hi.counter]
    unfold counterAt
    split
    · rename_i hzero
      simp [Siid.id1, hzero]
    · rw [IdType.siid_id1 ty hlt]
      omega
  rw [hcount, List.mem_range'_1]
  constructor
  · intro h
    refine ⟨id - ty.code * 2 ^ 28, by omega, ?_⟩
    rw [IdType.siid_id1 ty (by omega)]
    omega
  · rintro ⟨v, hv, rfl⟩
    rw [IdType.siid_id1 ty (by omega)]
    omega

theorem Siid.ofId1_id1 (id : Siid) : Siid.ofId1 id.id1 = id := by
  apply Siid.id1_inj
  rw [Siid.id1_ofId1]
  have := id.value_lt
  have := id.type_lt
  simp only [Siid.id1]
  omega

/-- A counter that has started over hides its sinodes. -/
theorem sinodeMatchType_wrapped (h : s.idIdx ty = counterAt ty (2 ^ 28)) :
    sinodeMatchType s ty = [] := by
  have hcount : (s.idIdx ty).id1 - ty.code * 2 ^ 28 = 0 := by
    rw [h]
    simp [counterAt, IdType.siid, Siid.id1]
  unfold sinodeMatchType
  rw [hcount]
  rfl

/-- **`__sinode_match` goes through the inserted sinodes of its type.** -/
theorem mem_sinodeMatchType (hi : IdInv s) (hm : Matchable ty) (p : Nat) :
    p ∈ sinodeMatchType s ty ↔ p ∈ s.inserted ∧ (s.nodeId p).idType = ty.code := by
  by_cases hw : s.issued ty = 2 ^ 28
  · rw [sinodeMatchType_wrapped (hw ▸ hi.counter ty)]
    simp only [List.not_mem_nil, false_iff, not_and]
    exact hi.unwrapped ty hm hw p
  have hlt : s.issued ty < 2 ^ 28 := Nat.lt_of_le_of_ne (hi.bounded ty) hw
  unfold sinodeMatchType
  rw [List.mem_filterMap]
  constructor
  · rintro ⟨id, hid, hfound⟩
    obtain ⟨v, -, rfl⟩ := (mem_matchIds hi hlt id).mp hid
    rw [Siid.ofId1_id1] at hfound
    obtain ⟨hins, heq⟩ := (search_iff hi (IdType.ofCode_code ty) p).mp hfound
    exact ⟨hins, by rw [heq]; rfl⟩
  · rintro ⟨hins, hty⟩
    obtain ⟨ty', v, hv, hid⟩ := hi.ids p (hi.inside p hins)
    obtain rfl : ty' = ty := IdType.code_inj (by rw [← hty, hid]; rfl)
    refine ⟨_, (mem_matchIds hi hlt _).mpr ⟨v, hv, rfl⟩, ?_⟩
    rw [Siid.ofId1_id1]
    exact (search_iff hi (IdType.ofCode_code ty') p).mpr ⟨hins, hid⟩

/-- No sinode is given to the callback twice. -/
theorem nodup_sinodeMatchType (hi : IdInv s) (ty : IdType) : (sinodeMatchType s ty).Nodup := by
  by_cases hw : s.issued ty = 2 ^ 28
  · rw [sinodeMatchType_wrapped (hw ▸ hi.counter ty)]
    exact List.nodup_nil
  have hlt : s.issued ty < 2 ^ 28 := Nat.lt_of_le_of_ne (hi.bounded ty) hw
  unfold sinodeMatchType List.Nodup
  rw [List.pairwise_filterMap]
  refine List.Pairwise.imp_of_mem (fun {id id'} hid hid' hne p hp q hq => ?_) List.nodup_range'
  obtain ⟨v, -, rfl⟩ := (mem_matchIds hi hlt id).mp hid
  obtain ⟨v', -, rfl⟩ := (mem_matchIds hi hlt id').mp hid'
  rw [Siid.ofId1_id1] at hp hq
  have hv := ((search_iff hi (IdType.ofCode_code ty) p).mp hp).2
  have hv' := ((search_iff hi (IdType.ofCode_code ty) q).mp hq).2
  rintro rfl
  exact hne (by rw [← hv, hv'])

theorem nodup_matchTypes (type : String) : (matchTypes type).Nodup := by
  unfold matchTypes
  split <;> decide

theorem IdInv.idsRight (hi : IdInv s) : IdsRight s where
  distinct p hp q hq h := hi.distinct p hp q hq (Siid.id1_inj h)
  search id p hid := by
    obtain ⟨ty, hof⟩ := Option.isSome_iff_exists.mp hid
    exact search_iff hi hof p
  matched type := by
    have hmem : ∀ ty ∈ matchTypes type, ∀ p, p ∈ sinodeMatchType s ty ↔
        p ∈ s.inserted ∧ (s.nodeId p).idType = ty.code :=
      fun ty hty => mem_sinodeMatchType hi ⟨type, hty⟩
    refine ⟨List.nodup_flatMap.mpr ⟨fun ty _ => nodup_sinodeMatchType hi ty, ?_⟩, fun p => ?_⟩
    · refine List.Pairwise.imp_of_mem (fun {ty ty'} hty hty' hne => ?_) (nodup_matchTypes type)
      intro p hp hp'
      have hcode := ((hmem ty hty p).mp hp).2
      rw [((hmem ty' hty' p).mp hp').2] at hcode
      exact hne (IdType.code_inj hcode).symm
    · unfold sinodeMatch
      rw [List.mem_flatMap]
      constructor
      · rintro ⟨ty, hty, hp⟩
        obtain ⟨hins, hcode⟩ := (hmem ty hty p).mp hp
        exact ⟨hins, ty, hty, hcode⟩
      · rintro ⟨hins, ty, hty, hcode⟩
        exact ⟨ty, hty, (hmem ty hty p).mpr ⟨hins, hcode⟩⟩

/-! ## Where the ids go wrong -/

/-- Each type that `sinode_match` goes through has a call for itself. -/
theorem Matchable.alone (h : Matchable ty) : ∃ type, matchTypes type = [ty] := by
  obtain ⟨type, hmem⟩ := h
  unfold matchTypes at hmem
  split at hmem
  · simp only [List.mem_cons, List.not_mem_nil, or_false] at hmem
    obtain rfl | rfl := hmem
    · exact ⟨"var_global", rfl⟩
    · exact ⟨"var_static", rfl⟩
  · exact ⟨"var_global", by rw [List.mem_singleton.mp hmem]; rfl⟩
  · exact ⟨"var_static", by rw [List.mem_singleton.mp hmem]; rfl⟩
  · simp only [List.mem_cons, List.not_mem_nil, or_false] at hmem
    obtain rfl | rfl := hmem
    · exact ⟨"func_global", rfl⟩
    · exact ⟨"func_static", rfl⟩
  · exact ⟨"func_global", by rw [List.mem_singleton.mp hmem]; rfl⟩
  · exact ⟨"func_static", by rw [List.mem_singleton.mp hmem]; rfl⟩
  · exact ⟨"type", by rw [List.mem_singleton.mp hmem]; rfl⟩
  · cases hmem

/-- A counter that has started over hides what is inserted of its type. -/
theorem not_idsRight_of_wrapped (hm : Matchable ty)
    (hcounter : s.idIdx ty = counterAt ty (2 ^ 28)) {p : Nat} (hp : p ∈ s.inserted)
    (hty : (s.nodeId p).idType = ty.code) : ¬ IdsRight s := by
  intro hr
  obtain ⟨type, halone⟩ := hm.alone
  have hmem : ty ∈ matchTypes type := by simp [halone]
  have hmatch := ((hr.matched type).2 p).mpr ⟨hp, ty, hmem, hty⟩
  rw [sinodeMatch, halone, List.flatMap_cons, sinodeMatchType_wrapped hcounter] at hmatch
  cases hmatch

/-- **A counter that has handed out all numbers starts over.** -/
theorem newSinode_repeats (hi : IdInv s) (hout : s.issued ty = 2 ^ 28) (name : Option Name)
    (data : SinodeData) :
    ∃ s' q, newSinode s ty name data = some s' ∧ q < s.st.next ∧
      s'.st.next = s.st.next + 1 ∧ s'.nodeId q = s'.nodeId s.st.next := by
  obtain ⟨sn, hnew, -⟩ := newSinode_eq hi ty name data
  obtain ⟨q, hq, hid⟩ := hi.handed ty 0 (by omega)
  refine ⟨_, q, hnew, hq, rfl, ?_⟩
  show Function.update s.nodeId s.st.next _ q = Function.update s.nodeId s.st.next _ s.st.next
  rw [Function.update_of_ne (Nat.ne_of_lt hq), Function.update_self, hid, hout]
  rfl

/-- A new sinode whose id is the last one, or none is left. -/
theorem new_breaks (hi : IdInv s) {name : Option Name} {data : SinodeData}
    (hng : ¬ IdsLast s (.new ty name data)) :
    ∃ s', idStep s R Rid (.new ty name data) = some s' ∧ ¬ IdsRight s' := by
  obtain hle | hlt := Nat.lt_or_ge (s.issued ty) (2 ^ 28)
  · -- the last id brings the counter back to the start
    obtain ⟨sn, hnew, -⟩ := newSinode_eq hi ty name data
    have hlast : s.issued ty + 1 = 2 ^ 28 ∧ Matchable ty ∧
        ∃ p ∈ s.inserted, (s.nodeId p).idType = ty.code := by
      by_contra hno
      refine hng ⟨hle, fun hlast hm p hp hty => hno ⟨hlast, hm, p, hp, hty⟩⟩
    obtain ⟨hlast, hm, p, hp, hty⟩ := hlast
    refine ⟨_, by rw [idStep, idCall, hnew]; rfl, ?_⟩
    refine not_idsRight_of_wrapped hm ?_ (p := p) hp ?_
    · show Function.update s.idIdx ty _ ty = _
      rw [Function.update_self, hlast]
    · show (Function.update s.nodeId s.st.next _ p).idType = _
      rw [Function.update_of_ne (Nat.ne_of_lt (hi.inside p hp)), hty]
  · obtain ⟨s', q, hnew, hq, hnext, hsame⟩ :=
      newSinode_repeats hi (Nat.le_antisymm (hi.bounded ty) hlt) name data
    refine ⟨s', by rw [idStep, idCall, hnew]; rfl, fun hright => ?_⟩
    have heq := hright.distinct q (by omega) s.st.next (by omega) (by rw [hsame])
    omega

/-- A sinode that is refused after its id was linked, or linked when the counter has started
    over. -/
theorem insert_breaks (hi : IdInv s) (hng : ¬ IdsLast s (.insert p .none))
    (hr : FailedKeeps R Rid s (.insert p .none)) :
    ∃ s', idStep s R Rid (.insert p .none) = some s' ∧ ¬ IdsRight s' := by
  simp only [IdsLast, Classical.not_imp, not_forall] at hng
  obtain ⟨hp, hnot, t, hty, hnamed, hplace, hbad⟩ := hng
  have htype := hi.typed p hp t hty
  have hof : IdType.ofCode (s.nodeId p).idType = some (.spec t) := by
    rw [hty, IdType.ofCode_code]
  have hnew : sinodeInsertById s Rid (.spec t) p ≠ none := fun hnone =>
    hnot ((sinodeInsertById_none hi hp hty).mp hnone)
  obtain ⟨s₁, hid⟩ := Option.ne_none_iff_exists'.mp hnew
  obtain ⟨tree, hlink, rfl⟩ := Option.map_eq_some_iff.mp hid
  by_cases hmeets : meets s.st p .none = true
  · -- the id is linked and the key is refused
    rw [if_pos hmeets, Bool.not_eq_false] at hbad
    rw [← htype] at hbad
    have hclash := sinodeInsertSpec_clash (s := { s with
      idTrees := Function.update s.idTrees (.spec t) (Rid.run p tree) }) (t := t) R
      hnamed hplace hmeets hbad
    have hcall : idCall s R Rid (.insert p .none) = some ({ s with
        idTrees := Function.update s.idTrees (.spec t) (Rid.run p tree) }, -1) := by
      simp only [idCall, hp, if_true, sinodeInsertId, hof, hid]
      exact hclash
    have hkept := (hr _ _ hcall (by decide)).1
    have hmem : p ∈ (Rid.run p tree).toList := by
      rw [Rid.toList_run]
      exact (SearchTree.mem_link hlink).mpr (Or.inl rfl)
    have htree := congrFun hkept (.spec t)
    simp only [Function.update_self] at htree
    rw [htree] at hmem
    exact absurd ((hi.members _ p).mp hmem).1 hnot
  · rw [if_neg hmeets] at hbad
    simp only [Classical.not_imp, Nat.not_lt] at hbad
    obtain ⟨hm, hwrap⟩ := hbad
    obtain ⟨st', hspec⟩ := sinodeInsertSpec_link (s := { s with
      idTrees := Function.update s.idTrees (.spec t) (Rid.run p tree) }) (t := t) R
      hnamed hplace (by simpa using hmeets)
    refine ⟨{ s with
      idTrees := Function.update s.idTrees (.spec t) (Rid.run p tree)
      st := st'
      inserted := p :: s.inserted }, ?_, ?_⟩
    · rw [idStep, idCall, if_pos hp, sinodeInsertId, hof]
      simp only [hid, hspec]
      rfl
    · refine not_idsRight_of_wrapped (p := p) hm ?_ List.mem_cons_self hty
      rw [← Nat.le_antisymm (hi.bounded _) hwrap]
      exact hi.counter _

/-- A replacement that links its sinode: the id is not linked. -/
theorem replace_breaks (hi : IdInv s) (hng : ¬ IdsLast s (.insert p .replace)) :
    ∃ s', idStep s R Rid (.insert p .replace) = some s' ∧ ¬ IdsRight s' := by
  simp only [IdsLast, Classical.not_imp] at hng
  obtain ⟨hp, hnot, hbad⟩ := hng
  obtain ⟨ty, hof, hty⟩ := hi.ofCode hp
  have hlost : ∀ st', st'.next = s.st.next →
      ¬ IdsRight { s with st := st', inserted := p :: s.inserted } := by
    intro st' hnext hright
    have hfound := (hright.search (s.nodeId p) p (by rw [hof]; rfl)).mpr
      ⟨List.mem_cons_self, rfl⟩
    exact hnot ((search_iff hi hof p).mp hfound).1
  cases ty with
  | codep =>
    refine ⟨{ s with inserted := p :: s.inserted }, ?_, hlost s.st rfl⟩
    rw [idStep, idCall, if_pos hp, sinodeInsertId, hof]
    rfl
  | spec t =>
    have hlinks : s.named p = true ∧ hasPlace (s.st.sn p) .replace = true ∧
        meets s.st p .replace = false := by
      simpa using not_exists.mp hbad t |> fun h => not_and.mp h hty
    obtain ⟨hnamed, hplace, hmeets⟩ := hlinks
    obtain ⟨st', hspec⟩ := sinodeInsertSpec_link (t := t) R hnamed hplace hmeets
    refine ⟨{ s with st := st', inserted := p :: s.inserted }, ?_, hlost st' ?_⟩
    · rw [idStep, idCall, if_pos hp, sinodeInsertId, hof]
      simp only [hspec]
      rfl
    · obtain ⟨-, -, hends⟩ := sinodeInsertSpec_cases hspec
      obtain ⟨h, -⟩ | ⟨st'', hst, -, ⟨-, hm, -⟩ | ⟨heq, -⟩⟩ := hends
      · cases h
      · rw [hmeets] at hm
        cases hm
      · have hnext : st' = st'' := congrArg IdStore.st heq
        rw [hnext]
        exact (sinodeInsert_types hst).1

/-- A call that misses its guard breaks the ids, or changes a tree and fails. -/
theorem ids_break (hi : IdInv s) {e : IdEvent} (hng : ¬ IdsLast s e)
    (hr : FailedKeeps R Rid s e) : ∃ s', idStep s R Rid e = some s' ∧ ¬ IdsRight s' := by
  cases e with
  | new ty name data => exact new_breaks hi hng
  | insert p behavior =>
    cases behavior with
    | none => exact insert_breaks hi hng hr
    | replace => exact replace_breaks hi hng

theorem idInv_empty : IdInv .empty where
  counter _ := rfl
  bounded _ := Nat.zero_le _
  ids _ hp := absurd hp (Nat.not_lt_zero _)
  handed _ _ hv := absurd hv (Nat.not_lt_zero _)
  distinct _ hp := absurd hp (Nat.not_lt_zero _)
  typed _ hp := absurd hp (Nat.not_lt_zero _)
  sorted _ := List.Pairwise.nil
  members _ _ := by simp [IdStore.empty]
  inside _ hp := by cases hp
  unwrapped _ _ h := by cases h

/-- **Over every order of calls, ids differ, the searches answer the inserted sinodes and a failed
    insertion changes nothing, exactly when each call meets its guard.** -/
theorem ids_exact (R Rid : Recolor) (es : List IdEvent) :
    (Visits (fun s => idStep s R Rid) IdsRight .empty es ∧
      Along (fun s => idStep s R Rid) (FailedKeeps R Rid) .empty es) ↔
      Along (fun s => idStep s R Rid) IdsLast .empty es := by
  refine visits_along_iff ?_ (fun _ hi => hi.idsRight) ?_ (fun _ _ hi hng hr => ids_break hi hng hr)
    idInv_empty
  · intro s e s' hi hg h
    obtain ⟨⟨s'', r⟩, hcall, rfl⟩ := Option.map_eq_some_iff.mp h
    exact (idCall_keeps hi hg hcall).1
  · exact fun s e hi hg s' r hcall => (idCall_keeps hi hg hcall).2

/-- A file `a`. -/
def fileA : IdEvent :=
  .new (.spec .file) (some [97]) ⟨none, 0, ⟨0, 0, .gimple⟩, none, none, 0, 0, false⟩

/-- A second sinode of the file `a` is refused, but its id is linked. -/
theorem same_file_keeps_id :
    ¬ (Visits (fun s => idStep s .id .id) IdsRight .empty
        [fileA, fileA, .insert 0 .none, .insert 1 .none] ∧
      Along (fun s => idStep s .id .id) (FailedKeeps .id .id) .empty
        [fileA, fileA, .insert 0 .none, .insert 1 .none]) := by
  rintro ⟨-, ha⟩
  have hfail := (((ha.2 _ rfl).2 _ rfl).2 _ rfl).1 _ _ rfl (by decide)
  have htree := congrFun hfail.1 (.spec .file)
  cases htree

end Srcinv.Analysis
