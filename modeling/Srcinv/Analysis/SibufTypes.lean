import Srcinv.Lib.Places
import Srcinv.Lib.Run
import Srcinv.Analysis.Sinode
import Mathlib.Data.List.Nodup

/-!
# The types of a sibuf (`analysis/sibuf.c`)

The first tree is ordered by `type_code`.  Its nodes are the first type of each code; they hold the
root of a second tree, ordered by `node`, with the other types of the code.  The root lies in the
same union as the link of a node of a second tree, which `Getbase` leaves out.

* `sibufTypenodeInsert`, `sibufTypenodeSearch` — the two operations.
* `TypesInv.insert` — what an insertion keeps.
* `sibufTypes_right` — **after any insertions of distinct types both levels are ordered and a search
  returns the type that was inserted for the pair, or `NULL`.**
-/

namespace Srcinv.Analysis.SibufTypes

open Srcinv.Lib

/-- What the union `same_tc_rbtree` holds.  An empty root and an empty link are both zero. -/
inductive SameTc where
  | root (t : SearchTree Nat)
  | node
  deriving Repr

/-- `struct sibuf_typenode`: the type, and the union. -/
structure SibufTypenode where
  typeCode : UInt16
  node : Nat
  same : SameTc

/-- The `file_types` of a sibuf, and the type nodes that `src_buf_get` has given. -/
structure TypeStore where
  stn : Nat → SibufTypenode
  next : Nat
  fileTypes : SearchTree Nat

/-- A sibuf without types. -/
def TypeStore.empty : TypeStore := ⟨fun _ => ⟨0, 0, .root .nil⟩, 0, .nil⟩

namespace TypeStore

variable (st : TypeStore)

/-- The key of the first level. -/
def tc (p : Nat) : Int := (st.stn p).typeCode.toNat

/-- The key of the second level. -/
def nd (p : Nat) : Nat := (st.stn p).node

end TypeStore

variable (st : TypeStore)

/-- `sibuf_typenode_new` and `type_node_init`. -/
def sibufTypenodeNew (typeCode : UInt16) (node : Nat) : TypeStore :=
  { st with
    stn := Function.update st.stn st.next ⟨typeCode, node, .root .nil⟩
    next := st.next + 1 }

/-- `sibuf_typenode_insert_same_tc`; an equal node is a `BUG`. -/
def sibufTypenodeInsertSameTc (R : Recolor) (t : SearchTree Nat) (p : Nat) :
    Option (SearchTree Nat) :=
  (t.link (fun q => compare (st.nd q) (st.nd p)) p).map (R.run p)

/-- `sibuf_typenode_insert`: `none` at a `BUG`, or where the union is read as what it is not. -/
def sibufTypenodeInsert (R : Recolor) (p : Nat) : Option TypeStore :=
  match st.fileTypes.find fun q => compare (st.tc q) (st.tc p) with
  | none =>
    (st.fileTypes.link (fun q => compare (st.tc q) (st.tc p)) p).map fun t =>
      { st with fileTypes := R.run p t }
  | some q =>
    if st.nd q = st.nd p then none
    else
      match (st.stn q).same with
      | .node => none
      | .root t => (sibufTypenodeInsertSameTc st R t p).map fun t =>
          { st with
            stn := Function.update (Function.update st.stn q { st.stn q with same := .root t }) p
              { st.stn p with same := .node } }

/-- `sibuf_typenode_search`; `none` where the union is read as what it is not. -/
def sibufTypenodeSearch (tc : Int) (addr : Nat) : Option (Option Nat) :=
  match st.fileTypes.find fun q => compare (st.tc q) tc with
  | none => some none
  | some q =>
    if st.nd q = addr then some (some q)
    else
      match (st.stn q).same with
      | .node => none
      | .root t => some (t.find fun q => compare (st.nd q) addr)

/-- A new type is inserted. -/
def insertType (R : Recolor) (ty : UInt16 × Nat) : Option TypeStore :=
  sibufTypenodeInsert (sibufTypenodeNew st ty.1 ty.2) R st.next

/-- **Both levels are strictly ordered.** -/
def LevelsOrdered : Prop :=
  (st.fileTypes.toList.Pairwise fun p q => (st.stn p).typeCode < (st.stn q).typeCode) ∧
    ∀ q ∈ st.fileTypes.toList, ∃ t, (st.stn q).same = .root t ∧
      t.toList.Pairwise fun p q => (st.stn p).node < (st.stn q).node

/-- The invariant: the `i`-th type node is the one of the `i`-th type that was inserted. -/
structure TypesInv (types : List (UInt16 × Nat)) (st : TypeStore) : Prop where
  next : st.next = types.length
  made : ∀ p ty, types[p]? = some ty → (st.stn p).typeCode = ty.1 ∧ (st.stn p).node = ty.2
  first : st.fileTypes.Sorted st.tc
  roots : ∀ q ∈ st.fileTypes.toList, q < st.next ∧ ∃ t, (st.stn q).same = .root t ∧
    t.Sorted st.nd ∧ ∀ p ∈ t.toList, p < st.next ∧ st.tc p = st.tc q ∧ (st.stn p).same = .node
  found : ∀ p < st.next, p ∈ st.fileTypes.toList ∨ ∃ q ∈ st.fileTypes.toList, ∃ t,
    (st.stn q).same = .root t ∧ p ∈ t.toList

variable {st} {st' : TypeStore} {types : List (UInt16 × Nat)} {p q : Nat} {R : Recolor}

theorem tc_eq_iff : st.tc p = st.tc q ↔ (st.stn p).typeCode = (st.stn q).typeCode := by
  unfold TypeStore.tc
  rw [Int.ofNat_inj, UInt16.toNat_inj]

/-- The levels are ordered under the invariant. -/
theorem TypesInv.ordered (hi : TypesInv types st) : LevelsOrdered st := by
  refine ⟨List.Pairwise.imp (fun {p q} h => ?_) hi.first, fun q hq => ?_⟩
  · rw [compare_lt_iff_lt] at h
    exact UInt16.lt_iff_toNat_lt.mpr (Int.ofNat_lt.mp h)
  · obtain ⟨-, t, ht, hsorted, -⟩ := hi.roots q hq
    exact ⟨t, ht, List.Pairwise.imp (fun {p q} h => compare_lt_iff_lt.mp h) hsorted⟩

/-- The type of a type node. -/
theorem TypesInv.type_at (hi : TypesInv types st) (hp : p < st.next) :
    types[p]? = some ((st.stn p).typeCode, (st.stn p).node) := by
  rw [hi.next] at hp
  obtain ⟨htc, hnd⟩ := hi.made p types[p] (List.getElem?_eq_getElem hp)
  rw [List.getElem?_eq_getElem hp, htc, hnd]

theorem TypesInv.mem_of_eq (hi : TypesInv types st) (hp : p < st.next) {ty : UInt16 × Nat}
    (htc : (st.stn p).typeCode = ty.1) (hnd : (st.stn p).node = ty.2) : ty ∈ types := by
  have hat := hi.type_at hp
  rw [htc, hnd] at hat
  exact List.mem_of_getElem? hat

/-- **A search finds the type node of the pair.** -/
theorem TypesInv.search (hi : TypesInv types st) (htypes : types.Nodup) (hp : p < st.next) :
    sibufTypenodeSearch st (st.tc p) (st.nd p) = some (some p) := by
  obtain hfirst | ⟨q, hq, t, ht, hpt⟩ := hi.found p hp
  · unfold sibufTypenodeSearch
    rw [(SearchTree.find_key hi.first).mpr ⟨hfirst, Std.ReflCmp.compare_self⟩]
    exact if_pos rfl
  · obtain ⟨hql, t', ht', hsorted, hbelow⟩ := hi.roots q hq
    cases ht.symm.trans ht'
    obtain ⟨-, htc, hsame⟩ := hbelow p hpt
    have hfind : st.fileTypes.find (fun r => compare (st.tc r) (st.tc p)) = some q :=
      (SearchTree.find_key hi.first).mpr ⟨hq, by rw [htc]; exact Std.ReflCmp.compare_self⟩
    have hne : st.nd q ≠ st.nd p := by
      intro hnd
      have hqp : types[q]? = types[p]? := by
        rw [hi.type_at hql, hi.type_at hp, show (st.stn q).node = (st.stn p).node from hnd,
          tc_eq_iff.mp htc]
      have heq : q = p := (List.getElem?_inj (hi.next ▸ hql) htypes).mp hqp
      rw [heq, hsame] at ht
      cases ht
    unfold sibufTypenodeSearch
    rw [hfind]
    simp only [hne, if_false, ht, Option.some.injEq]
    exact (SearchTree.find_key hsorted).mpr ⟨hpt, Std.ReflCmp.compare_self⟩

/-- **A search for another pair returns `NULL`.** -/
theorem TypesInv.search_none (hi : TypesInv types st) {tc : Int} {addr : Nat}
    (hno : ∀ ty ∈ types, ¬ ((ty.1.toNat : Int) = tc ∧ ty.2 = addr)) :
    sibufTypenodeSearch st tc addr = some none := by
  have hmiss : ∀ p < st.next, st.tc p = tc → st.nd p ≠ addr := by
    intro p hp htc hnd
    have hmem : ((st.stn p).typeCode, (st.stn p).node) ∈ types := hi.mem_of_eq hp rfl rfl
    exact hno _ hmem ⟨htc, hnd⟩
  unfold sibufTypenodeSearch
  cases hfind : st.fileTypes.find fun q => compare (st.tc q) tc with
  | none => rfl
  | some q =>
    obtain ⟨hq, htc⟩ := SearchTree.find_some hfind
    have htc : st.tc q = tc := Std.LawfulEqCmp.eq_of_compare htc
    obtain ⟨hql, t, ht, hsorted, hbelow⟩ := hi.roots q hq
    simp only [hmiss q hql htc, if_false, ht, Option.some.injEq]
    cases hsecond : t.find fun r => compare (st.nd r) addr with
    | none => rfl
    | some r =>
      obtain ⟨hr, hnd⟩ := SearchTree.find_some hsecond
      obtain ⟨hrl, hrtc, -⟩ := hbelow r hr
      exact absurd (Std.LawfulEqCmp.eq_of_compare hnd) (hmiss r hrl (hrtc.trans htc))

/-! ## Inserting -/

theorem new_self (st : TypeStore) (ty : UInt16 × Nat) :
    (sibufTypenodeNew st ty.1 ty.2).stn st.next = ⟨ty.1, ty.2, .root .nil⟩ :=
  Function.update_self ..

theorem new_of_lt (ty : UInt16 × Nat) (hp : p < st.next) :
    (sibufTypenodeNew st ty.1 ty.2).stn p = st.stn p :=
  Function.update_of_ne (Nat.ne_of_lt hp) ..

/-- Type nodes keep their types, and the new one has its own. -/
theorem TypesInv.made_append (hi : TypesInv types st) {ty : UInt16 × Nat}
    (hold : ∀ p < st.next, (st'.stn p).typeCode = (st.stn p).typeCode ∧
      (st'.stn p).node = (st.stn p).node)
    (hnew : (st'.stn st.next).typeCode = ty.1 ∧ (st'.stn st.next).node = ty.2) :
    ∀ p ty', (types ++ [ty])[p]? = some ty' →
      (st'.stn p).typeCode = ty'.1 ∧ (st'.stn p).node = ty'.2 := by
  intro p ty' hp
  obtain hp | ⟨rfl, rfl⟩ := getElem?_snoc.mp hp
  · have hlt := (List.getElem?_eq_some_iff.mp hp).1
    obtain ⟨htc, hnd⟩ := hold p (hi.next ▸ hlt)
    rw [htc, hnd]
    exact hi.made p ty' hp
  · rw [← hi.next]
    exact hnew

/-- The new type is the first of its code. -/
theorem TypesInv.insert_first (hi : TypesInv types st) {ty : UInt16 × Nat} {t : SearchTree Nat}
    (hlink : st.fileTypes.link (fun q => compare ((sibufTypenodeNew st ty.1 ty.2).tc q)
      ((sibufTypenodeNew st ty.1 ty.2).tc st.next)) st.next = some t) :
    TypesInv (types ++ [ty]) { sibufTypenodeNew st ty.1 ty.2 with
      fileTypes := R.run st.next t } := by
  have hold : ∀ p < st.next, (sibufTypenodeNew st ty.1 ty.2).stn p = st.stn p :=
    fun p hp => new_of_lt ty hp
  have hmem : ∀ q, q ∈ (R.run st.next t).toList ↔ q = st.next ∨ q ∈ st.fileTypes.toList := by
    intro q
    rw [R.toList_run]
    exact SearchTree.mem_link hlink
  refine ⟨?_, hi.made_append (fun p hp => ?_) ?_, ?_, fun q hq => ?_, fun p hp => ?_⟩
  · rw [List.length_append, ← hi.next]
    rfl
  · exact ⟨congrArg _ (hold p hp), congrArg _ (hold p hp)⟩
  · exact ⟨congrArg _ (new_self st ty), congrArg _ (new_self st ty)⟩
  · have hsorted : st.fileTypes.Sorted (sibufTypenodeNew st ty.1 ty.2).tc :=
      SearchTree.sorted_congr rfl (fun q hq => by
        unfold TypeStore.tc
        rw [hold q (hi.roots q hq).1]) hi.first
    exact SearchTree.sorted_congr (R.toList_run _ _) (fun _ _ => rfl)
      (SearchTree.link_key hsorted hlink)
  · obtain rfl | hq := (hmem q).mp hq
    · refine ⟨Nat.lt_succ_self _, .nil, congrArg _ (new_self st ty), List.Pairwise.nil,
        fun p hp => (by cases hp)⟩
    · obtain ⟨hql, t₀, ht₀, hsorted, hbelow⟩ := hi.roots q hq
      refine ⟨Nat.lt_succ_of_lt hql, t₀, (congrArg _ (hold q hql)).trans ht₀,
        SearchTree.sorted_congr rfl (fun p hp => ?_) hsorted, fun p hp => ?_⟩
      · exact congrArg SibufTypenode.node (hold p (hbelow p hp).1)
      · obtain ⟨hpl, htc, hsame⟩ := hbelow p hp
        refine ⟨Nat.lt_succ_of_lt hpl, tc_eq_iff.mpr ?_, (congrArg _ (hold p hpl)).trans hsame⟩
        dsimp only
        rw [hold p hpl, hold q hql]
        exact tc_eq_iff.mp htc
  · obtain hp | rfl := Nat.lt_succ_iff_lt_or_eq.mp hp
    · obtain hfirst | ⟨q, hq, t₀, ht₀, hpt⟩ := hi.found p hp
      · exact Or.inl ((hmem p).mpr (Or.inr hfirst))
      · exact Or.inr ⟨q, (hmem q).mpr (Or.inr hq), t₀,
          (congrArg _ (hold q (hi.roots q hq).1)).trans ht₀, hpt⟩
    · exact Or.inl ((hmem _).mpr (Or.inl rfl))

/-- The sibuf after the new type was linked below the first of its code. -/
def linkedBelow (st : TypeStore) (ty : UInt16 × Nat) (q : Nat) (t : SearchTree Nat) : TypeStore :=
  let st₁ := sibufTypenodeNew st ty.1 ty.2
  { st₁ with
    stn := Function.update (Function.update st₁.stn q { st₁.stn q with same := .root t }) st.next
      { st₁.stn st.next with same := .node } }

/-- The new type comes below the first of its code. -/
theorem TypesInv.insert_below (hi : TypesInv types st) {ty : UInt16 × Nat} {t t' : SearchTree Nat}
    (hq : q ∈ st.fileTypes.toList) (htc : (st.stn q).typeCode = ty.1)
    (ht : (st.stn q).same = .root t)
    (hlink : t.link (fun r => compare ((sibufTypenodeNew st ty.1 ty.2).nd r)
      ((sibufTypenodeNew st ty.1 ty.2).nd st.next)) st.next = some t') :
    TypesInv (types ++ [ty]) (linkedBelow st ty q (R.run st.next t')) := by
  obtain ⟨hql, t₀, ht₀, hsorted, hbelow⟩ := hi.roots q hq
  cases ht.symm.trans ht₀
  have hqn : q ≠ st.next := Nat.ne_of_lt hql
  have hnew : (linkedBelow st ty q (R.run st.next t')).stn st.next = ⟨ty.1, ty.2, .node⟩ := by
    refine (Function.update_self ..).trans ?_
    rw [new_self]
  have hat : (linkedBelow st ty q (R.run st.next t')).stn q =
      { st.stn q with same := .root (R.run st.next t') } := by
    refine (Function.update_of_ne hqn ..).trans ((Function.update_self ..).trans ?_)
    rw [new_of_lt ty hql]
  have hold : ∀ p < st.next, p ≠ q →
      (linkedBelow st ty q (R.run st.next t')).stn p = st.stn p := fun p hp hpq =>
    (Function.update_of_ne (Nat.ne_of_lt hp) ..).trans
      ((Function.update_of_ne hpq ..).trans (new_of_lt ty hp))
  have hfields : ∀ p < st.next,
      ((linkedBelow st ty q (R.run st.next t')).stn p).typeCode = (st.stn p).typeCode ∧
        ((linkedBelow st ty q (R.run st.next t')).stn p).node = (st.stn p).node := by
    intro p hp
    by_cases hpq : p = q
    · rw [hpq, hat]
      exact ⟨rfl, rfl⟩
    · rw [hold p hp hpq]
      exact ⟨rfl, rfl⟩
  have htcs : ∀ p < st.next, (linkedBelow st ty q (R.run st.next t')).tc p = st.tc p := by
    intro p hp
    unfold TypeStore.tc
    rw [(hfields p hp).1]
  have hmem : ∀ p, p ∈ (R.run st.next t').toList ↔ p = st.next ∨ p ∈ t.toList := by
    intro p
    rw [R.toList_run]
    exact SearchTree.mem_link hlink
  refine ⟨?_, hi.made_append hfields ?_, ?_, fun r hr => ?_, fun p hp => ?_⟩
  · rw [List.length_append, ← hi.next]
    rfl
  · rw [hnew]
    exact ⟨rfl, rfl⟩
  · exact SearchTree.sorted_congr rfl (fun r hr => htcs r (hi.roots r hr).1) hi.first
  · by_cases hrq : r = q
    · subst hrq
      refine ⟨Nat.lt_succ_of_lt hql, R.run st.next t', by rw [hat], ?_, fun p hp => ?_⟩
      · have hsorted₁ : t.Sorted (sibufTypenodeNew st ty.1 ty.2).nd :=
          SearchTree.sorted_congr rfl (fun p hp => by
            unfold TypeStore.nd
            rw [new_of_lt ty (hbelow p hp).1]) hsorted
        refine SearchTree.sorted_congr (R.toList_run _ _) (fun p hp => ?_)
          (SearchTree.link_key hsorted₁ hlink)
        unfold TypeStore.nd
        obtain rfl | hp := (SearchTree.mem_link hlink).mp hp
        · rw [hnew, new_self]
        · rw [new_of_lt ty (hbelow p hp).1]
          exact (hfields p (hbelow p hp).1).2
      · obtain rfl | hp := (hmem p).mp hp
        · refine ⟨Nat.lt_succ_self _, tc_eq_iff.mpr ?_, by rw [hnew]⟩
          rw [hnew, hat]
          exact htc.symm
        · obtain ⟨hpl, htcp, hsame⟩ := hbelow p hp
          have hpr : p ≠ r := by
            rintro rfl
            rw [hsame] at ht
            cases ht
          refine ⟨Nat.lt_succ_of_lt hpl, (htcs p hpl).trans (htcp.trans (htcs r hql).symm), ?_⟩
          rw [hold p hpl hpr]
          exact hsame
    · obtain ⟨hrl, t₁, ht₁, hsorted₁, hbelow₁⟩ := hi.roots r hr
      refine ⟨Nat.lt_succ_of_lt hrl, t₁, by rw [hold r hrl hrq]; exact ht₁,
        SearchTree.sorted_congr rfl (fun p hp => (hfields p (hbelow₁ p hp).1).2) hsorted₁,
        fun p hp => ?_⟩
      obtain ⟨hpl, htcp, hsame⟩ := hbelow₁ p hp
      have hpq : p ≠ q := by
        rintro rfl
        rw [hsame] at ht
        cases ht
      refine ⟨Nat.lt_succ_of_lt hpl, (htcs p hpl).trans (htcp.trans (htcs r hrl).symm), ?_⟩
      rw [hold p hpl hpq]
      exact hsame
  · obtain hp | rfl := Nat.lt_succ_iff_lt_or_eq.mp hp
    · obtain hfirst | ⟨r, hr, t₁, ht₁, hpt⟩ := hi.found p hp
      · exact Or.inl hfirst
      · by_cases hrq : r = q
        · subst hrq
          cases ht.symm.trans ht₁
          exact Or.inr ⟨r, hr, R.run st.next t', by rw [hat], (hmem p).mpr (Or.inr hpt)⟩
        · exact Or.inr ⟨r, hr, t₁, by rw [hold r (hi.roots r hr).1 hrq]; exact ht₁, hpt⟩
    · exact Or.inr ⟨q, hq, R.run st.next t', by rw [hat], (hmem _).mpr (Or.inl rfl)⟩

/-- **An insertion of a type that is not there succeeds and keeps the invariant.** -/
theorem TypesInv.insert (hi : TypesInv types st) {ty : UInt16 × Nat} (hty : ty ∉ types)
    (R : Recolor) : ∃ st', insertType st R ty = some st' ∧ TypesInv (types ++ [ty]) st' := by
  unfold insertType sibufTypenodeInsert
  cases hfind : st.fileTypes.find fun q => compare ((sibufTypenodeNew st ty.1 ty.2).tc q)
      ((sibufTypenodeNew st ty.1 ty.2).tc st.next) with
  | none =>
    obtain ⟨t, hlink⟩ := Option.isSome_iff_exists.mp (SearchTree.link_isSome_iff.mpr hfind)
    refine ⟨_, ?_, hi.insert_first (R := R) hlink⟩
    rw [show (sibufTypenodeNew st ty.1 ty.2).fileTypes = st.fileTypes from rfl, hfind]
    simp only [hlink, Option.map_some]
  | some q =>
    obtain ⟨hq, htc⟩ := SearchTree.find_some hfind
    obtain ⟨hql, t, ht, hsorted, hbelow⟩ := hi.roots q hq
    have htcq : (st.stn q).typeCode = ty.1 := by
      have heq := tc_eq_iff.mp (Std.LawfulEqCmp.eq_of_compare htc)
      rw [new_self, new_of_lt ty hql] at heq
      exact heq
    have hne : (sibufTypenodeNew st ty.1 ty.2).nd q ≠
        (sibufTypenodeNew st ty.1 ty.2).nd st.next := by
      intro hnd
      unfold TypeStore.nd at hnd
      rw [new_self, new_of_lt ty hql] at hnd
      exact hty (hi.mem_of_eq hql htcq hnd)
    have hmiss : t.find (fun r => compare ((sibufTypenodeNew st ty.1 ty.2).nd r)
        ((sibufTypenodeNew st ty.1 ty.2).nd st.next)) = none := by
      refine Option.eq_none_iff_forall_ne_some.mpr fun r hr => ?_
      obtain ⟨hrt, hnd⟩ := SearchTree.find_some hr
      obtain ⟨hrl, hrtc, -⟩ := hbelow r hrt
      have hnd := Std.LawfulEqCmp.eq_of_compare hnd
      unfold TypeStore.nd at hnd
      rw [new_self, new_of_lt ty hrl] at hnd
      exact hty (hi.mem_of_eq hrl ((tc_eq_iff.mp hrtc).trans htcq) hnd)
    obtain ⟨t', hlink⟩ := Option.isSome_iff_exists.mp (SearchTree.link_isSome_iff.mpr hmiss)
    refine ⟨_, ?_, hi.insert_below (R := R) hq htcq ht hlink⟩
    have hsame : ((sibufTypenodeNew st ty.1 ty.2).stn q).same = .root t := by
      rw [new_of_lt ty hql]
      exact ht
    rw [show (sibufTypenodeNew st ty.1 ty.2).fileTypes = st.fileTypes from rfl, hfind]
    simp only [hne, if_false, hsame, sibufTypenodeInsertSameTc, hlink, Option.map_some]
    rfl

theorem typesInv_empty : TypesInv [] .empty where
  next := rfl
  made p ty h := by cases h
  first := List.Pairwise.nil
  roots q hq := by cases hq
  found p hp := by cases hp

/-- **The types of a sibuf.**  Any sequence of insertions of distinct types runs without a `BUG`,
    keeps both levels strictly ordered and both levels apart; afterwards a search returns the type
    node that was made for the pair, and `NULL` for every other pair. -/
theorem sibufTypes_right (R : Recolor) (types : List (UInt16 × Nat)) (htypes : types.Nodup) :
    ∃ st, types.foldlM (fun st ty => insertType st R ty) .empty = some st ∧ LevelsOrdered st ∧
      (∀ p ty, types[p]? = some ty →
        sibufTypenodeSearch st ty.1.toNat ty.2 = some (some p)) ∧
      ∀ (tc : Int) (addr : Nat), (∀ ty ∈ types, ¬ ((ty.1.toNat : Int) = tc ∧ ty.2 = addr)) →
        sibufTypenodeSearch st tc addr = some none := by
  obtain ⟨st, hrun, hi⟩ := foldlM_total (I := TypesInv) types typesInv_empty
    fun pre ty post hsplit st hi => by
      refine hi.insert (fun hmem => ?_) R
      rw [hsplit] at htypes
      exact (List.nodup_append.mp htypes).2.2 ty hmem ty List.mem_cons_self rfl
  refine ⟨st, hrun, hi.ordered, fun p ty hp => ?_, fun tc addr hno => hi.search_none hno⟩
  obtain ⟨hlt, -⟩ := List.getElem?_eq_some_iff.mp hp
  obtain ⟨htc, hnd⟩ := hi.made p ty hp
  have hfound := hi.search htypes (hi.next ▸ hlt)
  unfold TypeStore.tc TypeStore.nd at hfound
  rwa [htc, hnd] at hfound

/-- Three types, two of one code. -/
theorem sibufTypes_right_three : ∃ st,
    [(1, 10), (1, 20), (2, 10)].foldlM (fun st ty => insertType st Recolor.id ty) .empty = some st ∧
      LevelsOrdered st ∧ sibufTypenodeSearch st 1 20 = some (some 1) ∧
      sibufTypenodeSearch st 2 20 = some none := by
  obtain ⟨st, hrun, hordered, hfound, hno⟩ :=
    sibufTypes_right Recolor.id [(1, 10), (1, 20), (2, 10)] (by decide)
  exact ⟨st, hrun, hordered, hfound 1 (1, 20) rfl, hno 2 20 (by decide)⟩

end Srcinv.Analysis.SibufTypes
