import Srcinv.Analysis.SinodeTrees
import Srcinv.Analysis.Xnode

/-!
# Looking up what the base phase registered (`include/si_gcc.h`)

The later phases meet the nodes of a sibuf again and derive the keys of their sinodes a second
time: `get_type_xnode`, `get_func_sinode` and `get_var_sinode`.  In the meantime the base phase has
gone on with other sibufs, has linked new sinodes and replaced the data of old ones.

* `Retains` — what a search returns it goes on returning.
* `retains_step` — a step of the base phase is of that kind, as long as replacements keep keys.
* `lookups_agree` — **the lookups return what the base phase registered**, after any run.
-/

namespace Srcinv.Analysis

open Srcinv.Lib

/-! ## Types -/

/-- `get_type_xnode` once it is known which type is looked for: the sinode of its name and place, or
    its type node.  The `BUG_ON` is `none`. -/
def searchType (src : BaseSrc) (b node : Nat) (t : TypeTree) : Option (Option Registered) :=
  (getTypeName t).bind fun name =>
    match (getLocation t).bind XLoc.file with
    | none => some ((sibufTypenodeSearch src.typenodes b t.code node).map .typenode)
    | some file =>
      match sinodeSearchFile src.sinodes file, getLocation t with
      | some locFile, some xloc =>
        (if name = [] then genTypeName t (ptr (some locFile)) xloc else some name).map fun name =>
          if name ≠ [] then
            (sinodeSearchNameLoc src.sinodes .type (some locFile) xloc.line xloc.column name).map
              .sinode
          else (sibufTypenodeSearch src.typenodes b t.code node).map .typenode
      | _, _ => none

/-- `get_type_xnode` of the type at `node`; `typeAt` is `find_target_sibuf`, with the type. -/
def getTypeXnode (src : BaseSrc) (typeAt : Nat → Option (Nat × TypeTree)) (node : Nat) :
    Option (Option Registered) :=
  match typeAt node with
  | none => some none
  | some (b, t) =>
    (getTypeName t).bind fun _ =>
      match checkFileType node t with
      | .undefined => some none
      | .defined => searchType src b node t
      | .canonicaled =>
        match typeAt t.canonical with
        | none => some none
        | some (b, canonical) => searchType src b t.canonical canonical

/-! ## Searching by key -/

/-- The key of a symbol in another resfile. -/
def SpecKey.inResfile (k : SpecKey) (rf : Nat) : SpecKey := ⟨k.name, [(rf : Int)]⟩

def SinodeType.isGlobal : SinodeType → Bool
  | .funcGlobal | .varGlobal => true
  | _ => false

/-- The sinode at `p` is linked with this key. -/
def HasKey (st : SinodeStore) (ty : SinodeType) (k : SpecKey) (p : Nat) : Prop :=
  p ∈ (st.trees ty).toList ∧ (st.sn p).key = k

variable {st st' : SinodeStore} {Z : NodeSizes} {R : Recolor} {src src' : BaseSrc} {e : BaseEvent}

/-- The walk by name and resfile compares keys. -/
theorem cmpNameResfile_eq {rf p : Nat} {name : Name} (hp : (st.sn p).type.isGlobal = true) :
    cmpNameResfile st rf name p = compare (st.sn p).key ⟨name, [(rf : Int)]⟩ := by
  have hrf : compare [((st.sn p).buf.rf : Int)] [(rf : Int)] = compare (st.sn p).buf.rf rf := by
    rw [compare_cons, compare_cast]
    exact Ordering.then_eq
  cases hty : (st.sn p).type with
  | funcGlobal | varGlobal =>
    simp only [cmpNameResfile, Sinode.key, hty, compare_specKey, hrf]
  | file | type | funcStatic | varStatic =>
    rw [hty] at hp
    cases hp

/-- A walk by a key finds the sinode that has it. -/
theorem find_iff_hasKey (hi : StoreInv st) {ty : SinodeType} {k : SpecKey} {probe : Nat → Ordering}
    (hprobe : ∀ a ∈ (st.trees ty).toList, probe a = compare (st.sn a).key k) {p : Nat} :
    (st.trees ty).find probe = some p ↔ HasKey st ty k p := by
  rw [SearchTree.find_congr hprobe, SearchTree.find_key (hi.sorted ty)]
  refine and_congr_right fun _ => ⟨fun h => Std.LawfulEqCmp.eq_of_compare h, fun h => ?_⟩
  rw [h]
  exact Std.ReflCmp.compare_self

theorem find_keyWalk_iff (hi : StoreInv st) {s : Sinode} {p : Nat} :
    (st.trees s.type).find (keyWalk st s) = some p ↔ HasKey st s.type s.key p :=
  find_iff_hasKey hi fun a ha => keyWalk_eq (hi.typed _ a ha).1

/-- The search for a global symbol falls back to the built-in resfile. -/
theorem sinodeSearch_global {s : Sinode} (hs : s.type.isGlobal = true) :
    sinodeSearch st s = ((st.trees s.type).find (keyWalk st s)).or
      (st.builtin.bind fun r => if r = s.buf.rf then none else
        (st.trees s.type).find (cmpNameResfile st r s.name)) := by
  have hres : sinodeSearchNameResfile st s.type s.buf.rf st.builtin s.name =
      ((st.trees s.type).find (cmpNameResfile st s.buf.rf s.name)).or
        (st.builtin.bind fun r => if r = s.buf.rf then none else
          (st.trees s.type).find (cmpNameResfile st r s.name)) := by
    unfold sinodeSearchNameResfile
    split
    · rename_i hfind
      rw [hfind]
      rfl
    · rename_i hfind
      rw [hfind]
      cases st.builtin <;> rfl
  cases hty : s.type with
  | funcGlobal | varGlobal => simpa only [sinodeSearch, keyWalk, hty] using hres
  | file | type | funcStatic | varStatic =>
    rw [hty] at hs
    cases hs

theorem sinodeSearch_local {s : Sinode} (hs : s.type.isGlobal = false) :
    sinodeSearch st s = (st.trees s.type).find (keyWalk st s) := by
  cases hty : s.type with
  | file => simp only [sinodeSearch, sinodeSearchFile, keyWalk, hty]
  | type | funcStatic | varStatic => simp only [sinodeSearch, sinodeSearchNameLoc, keyWalk, hty]
  | funcGlobal | varGlobal =>
    rw [hty] at hs
    cases hs

/-- **What a search finds**: the sinode of the key, and for a global symbol without one that of the
    built-in resfile. -/
theorem sinodeSearch_iff (hi : StoreInv st) {s : Sinode} {p : Nat} :
    sinodeSearch st s = some p ↔ HasKey st s.type s.key p ∨
      (s.type.isGlobal = true ∧ (∀ q, ¬ HasKey st s.type s.key q) ∧
        ∃ b, st.builtin = some b ∧ HasKey st s.type (s.key.inResfile b) p) := by
  cases hg : s.type.isGlobal with
  | false =>
    rw [sinodeSearch_local hg, find_keyWalk_iff hi]
    simp
  | true =>
    have hkey : ∀ b, s.key.inResfile b = ⟨s.name, [(b : Int)]⟩ := by
      intro b
      unfold SpecKey.inResfile Sinode.key
      split <;> rfl
    have hown : s.key = s.key.inResfile s.buf.rf := by
      rw [hkey]
      cases hty : s.type with
      | funcGlobal | varGlobal => simp only [Sinode.key, hty]
      | file | type | funcStatic | varStatic =>
        rw [hty] at hg
        cases hg
    have hwalk : ∀ b, (st.trees s.type).find (cmpNameResfile st b s.name) = some p ↔
        HasKey st s.type (s.key.inResfile b) p := by
      intro b
      rw [hkey]
      refine find_iff_hasKey hi fun a ha => cmpNameResfile_eq ?_
      rw [(hi.typed _ a ha).1]
      exact hg
    rw [sinodeSearch_global hg]
    cases hfind : (st.trees s.type).find (keyWalk st s) with
    | some q =>
      have hq := (find_keyWalk_iff hi).mp hfind
      rw [Option.some_or, ← hfind, find_keyWalk_iff hi]
      exact ⟨Or.inl, fun h => h.resolve_right fun h => h.2.1 q hq⟩
    | none =>
      have hno : ∀ q, ¬ HasKey st s.type s.key q := by
        intro q hq
        rw [(find_keyWalk_iff hi).mpr hq] at hfind
        cases hfind
      rw [Option.none_or, Option.bind_eq_some_iff]
      constructor
      · rintro ⟨b, hb, h⟩
        split at h
        · cases h
        · exact Or.inr ⟨rfl, hno, b, hb, (hwalk b).mp h⟩
      · rintro (h | ⟨-, -, b, hb, h⟩)
        · exact absurd h (hno p)
        · refine ⟨b, hb, ?_⟩
          split
          · rename_i hbrf
            subst hbrf
            exact absurd (hown ▸ h) (hno p)
          · exact (hwalk b).mpr h

/-! ## A store that grows -/

/-- Keys stay, the built-in resfile stays, and a key that is new was not found before, neither in
    its own resfile nor in the built-in one. -/
structure SnGrows (st st' : SinodeStore) : Prop where
  keeps : ∀ ty k p, HasKey st ty k p → HasKey st' ty k p
  builtin : ∀ b, st.builtin = some b → st'.builtin = some b
  fresh : ∀ ty k q, HasKey st' ty k q → HasKey st ty k q ∨ (ty.isGlobal = true →
    ∀ b, st.builtin = some b → ∀ p, ¬ HasKey st ty (k.inResfile b) p)

/-- A search in a store that grew returns what it returned. -/
theorem SnGrows.search (hi : StoreInv st) (hi' : StoreInv st') (h : SnGrows st st') {s : Sinode}
    {p : Nat} (hp : sinodeSearch st s = some p) : sinodeSearch st' s = some p := by
  rw [sinodeSearch_iff hi']
  obtain hown | ⟨hg, hno, b, hb, hkey⟩ := (sinodeSearch_iff hi).mp hp
  · exact Or.inl (h.keeps _ _ _ hown)
  · refine Or.inr ⟨hg, fun q hq => ?_, b, h.builtin b hb, h.keeps _ _ _ hkey⟩
    -- the key of the symbol itself would not have been inserted beside the built-in one
    obtain hq | hnone := h.fresh _ _ q hq
    · exact hno q hq
    · exact hnone hg b hb p hkey

theorem SnGrows.refl (st : SinodeStore) : SnGrows st st :=
  ⟨fun _ _ _ h => h, fun _ h => h, fun _ _ _ h => Or.inl h⟩

/-- The same keys and the same built-in resfile. -/
theorem grows_of_iff (h : ∀ ty k p, HasKey st' ty k p ↔ HasKey st ty k p)
    (hb : ∀ b, st.builtin = some b → st'.builtin = some b) : SnGrows st st' :=
  ⟨fun ty k p => (h ty k p).mpr, hb, fun ty k q hq => Or.inl ((h ty k q).mp hq)⟩

/-- Linking a sinode that the search did not find. -/
theorem grows_link (hi : StoreInv st) {s : Sinode}
    (hnone : s.type.isGlobal = true → sinodeSearch st s = none)
    (h : linkNode (st.alloc s) R (keyWalk (st.alloc s) s) st.next = some st') : SnGrows st st' := by
  obtain ⟨hsn, -, hbuiltin, -⟩ := linkNode_sn h
  have hmem := mem_linkNode h
  rw [alloc_self] at hmem
  have hold : ∀ ty, ∀ a ∈ (st.trees ty).toList, (st'.sn a).key = (st.sn a).key := by
    intro ty a ha
    rw [hsn, alloc_of_lt s (hi.typed ty a ha).2]
  refine ⟨fun ty k p hp => ⟨(hmem ty p).mpr (Or.inr hp.1), (hold ty p hp.1).trans hp.2⟩,
    fun b hb => hbuiltin.trans hb, fun ty k q hq => ?_⟩
  obtain ⟨rfl, rfl⟩ | hqmem := (hmem ty q).mp hq.1
  · refine Or.inr fun hg b hb p hp => ?_
    have hk : k = s.key := by rw [← hq.2, hsn, alloc_self]
    have hno : ∀ q, ¬ HasKey st s.type s.key q := by
      intro q hq
      have hsome := (sinodeSearch_iff hi).mpr (Or.inl hq)
      rw [hnone hg] at hsome
      cases hsome
    have hsome := (sinodeSearch_iff hi).mpr (Or.inr ⟨hg, hno, b, hb, hk ▸ hp⟩)
    rw [hnone hg] at hsome
    cases hsome
  · exact Or.inl ⟨hqmem, (hold ty q hqmem).symm.trans hq.2⟩

/-- Replacing by a sinode of the same key. -/
theorem grows_replace (hi : StoreInv st) {s : Sinode} {q : Nat}
    (hq : q ∈ (st.trees s.type).toList) (hname : (st.sn q).name = s.name)
    (hk : (st.sn q).key = s.key) : SnGrows st (sinodeInsertDoReplace (st.alloc s) q st.next) := by
  refine grows_of_iff (fun ty k p => ?_) fun b hb => hb
  refine and_congr_right fun hp => ?_
  have hp : p ∈ (st.trees ty).toList := hp
  rw [replace_sn s (hi.typed ty p hp).2]
  split
  · rename_i hpq
    rw [key_withData (hi.typed _ q hq).1 hname, hpq, hk]
  · rfl

/-! ## Type nodes -/

/-- The type nodes of a sibuf are sorted by code, those below one of them by address. -/
structure TypenodesOk (ts : TypenodeStore) : Prop where
  codes : ∀ buf, (ts.fileTypes buf).Sorted fun p => (ts.tn p).typeCode
  nodes : ∀ p, (ts.tn p).sameTc.Sorted fun q => (ts.tn q).node
  rootsLt : ∀ buf, ∀ p ∈ (ts.fileTypes buf).toList, p < ts.next
  belowLt : ∀ p, ∀ q ∈ (ts.tn p).sameTc.toList, q < ts.next

variable {ts ts' : TypenodeStore} {buf tc addr : Nat}

/-- The first type node of a code. -/
def IsRoot (ts : TypenodeStore) (buf tc p : Nat) : Prop :=
  p ∈ (ts.fileTypes buf).toList ∧ (ts.tn p).typeCode = tc

theorem find_root (hi : TypenodesOk ts) {p : Nat} :
    (ts.fileTypes buf).find (fun p => compare (ts.tn p).typeCode tc) = some p ↔
      IsRoot ts buf tc p := by
  rw [SearchTree.find_key (hi.codes buf)]
  exact and_congr_right fun _ => Nat.compare_eq_eq

/-- **What `sibuf_typenode_search` finds.** -/
theorem typenodeSearch_iff (hi : TypenodesOk ts) {q : Nat} :
    sibufTypenodeSearch ts buf tc addr = some q ↔ ∃ p, IsRoot ts buf tc p ∧
      (ts.tn q).node = addr ∧ (q = p ∨ ((ts.tn p).node ≠ addr ∧ q ∈ (ts.tn p).sameTc.toList)) := by
  unfold sibufTypenodeSearch
  cases hfind : (ts.fileTypes buf).find fun p => compare (ts.tn p).typeCode tc with
  | none =>
    refine ⟨fun h => (by cases h), fun ⟨p, hp, _⟩ => ?_⟩
    rw [(find_root hi).mpr hp] at hfind
    cases hfind
  | some p =>
    have hp := (find_root hi).mp hfind
    have hsame : ∀ p', IsRoot ts buf tc p' → p' = p := by
      intro p' hp'
      rw [(find_root hi).mpr hp'] at hfind
      exact Option.some.inj hfind
    simp only
    split
    · rename_i haddr
      constructor
      · intro h
        obtain rfl := Option.some.inj h
        exact ⟨p, hp, haddr, Or.inl rfl⟩
      · rintro ⟨p', hp', -, rfl | ⟨hne, -⟩⟩
        · rw [hsame q hp']
        · exact absurd (hsame p' hp' ▸ haddr) hne
    · rename_i haddr
      rw [SearchTree.find_key (hi.nodes p)]
      constructor
      · rintro ⟨hmem, hq⟩
        exact ⟨p, hp, Nat.compare_eq_eq.mp hq, Or.inr ⟨haddr, hmem⟩⟩
      · rintro ⟨p', hp', hq, rfl | ⟨-, hmem⟩⟩
        · exact absurd (hsame q hp' ▸ hq) haddr
        · exact ⟨hsame p' hp' ▸ hmem, Nat.compare_eq_eq.mpr hq⟩

/-- The new type node before it is linked. -/
def TypenodeStore.alloc (ts : TypenodeStore) (tc addr : Nat) : TypenodeStore :=
  { ts with tn := Function.update ts.tn ts.next ⟨tc, addr, .nil⟩, next := ts.next + 1 }

theorem typenode_alloc_self (ts : TypenodeStore) (tc addr : Nat) :
    (ts.alloc tc addr).tn ts.next = ⟨tc, addr, .nil⟩ := Function.update_self ..

theorem typenode_alloc_of_lt {p : Nat} (h : p < ts.next) :
    (ts.alloc tc addr).tn p = ts.tn p := Function.update_of_ne (Nat.ne_of_lt h) ..

theorem TypenodesOk.alloc (hi : TypenodesOk ts) (tc addr : Nat) :
    TypenodesOk (ts.alloc tc addr) where
  codes buf := SearchTree.sorted_congr rfl
    (fun p hp => by rw [typenode_alloc_of_lt (hi.rootsLt buf p hp)]) (hi.codes buf)
  nodes p := by
    by_cases hp : p = ts.next
    · rw [hp, typenode_alloc_self]
      exact List.Pairwise.nil
    · have hsame : (ts.alloc tc addr).tn p = ts.tn p := Function.update_of_ne hp ..
      rw [hsame]
      exact SearchTree.sorted_congr rfl
        (fun q hq => by rw [typenode_alloc_of_lt (hi.belowLt p q hq)]) (hi.nodes p)
  rootsLt buf p hp := Nat.lt_succ_of_lt (hi.rootsLt buf p hp)
  belowLt p q hq := by
    by_cases hp : p = ts.next
    · rw [hp, typenode_alloc_self] at hq
      cases hq
    · have hsame : (ts.alloc tc addr).tn p = ts.tn p := Function.update_of_ne hp ..
      rw [hsame] at hq
      exact Nat.lt_succ_of_lt (hi.belowLt p q hq)

/-- Linking below the first type node of a code. -/
theorem typenode_below (hi : TypenodesOk ts) {n p : Nat} {t : SearchTree Nat} (hn : n < ts.next)
    (haddr : (ts.tn n).node = addr)
    (hlink : (ts.tn p).sameTc.link (fun q => compare (ts.tn q).node addr) n = some t) :
    let ts' := { ts with tn := Function.update ts.tn p { ts.tn p with sameTc := R.run n t } }
    TypenodesOk ts' ∧ (∀ b c q, IsRoot ts' b c q ↔ IsRoot ts b c q) ∧
      (∀ q, (ts'.tn q).node = (ts.tn q).node) ∧
      ∀ r q, q ∈ (ts'.tn r).sameTc.toList ↔ (r = p ∧ q = n) ∨ q ∈ (ts.tn r).sameTc.toList := by
  intro ts'
  subst haddr
  have hself : ts'.tn p = { ts.tn p with sameTc := R.run n t } := Function.update_self ..
  have hother : ∀ r, r ≠ p → ts'.tn r = ts.tn r := fun r hr => Function.update_of_ne hr ..
  have hnode : ∀ q, (ts'.tn q).node = (ts.tn q).node := by
    intro q
    by_cases hq : q = p
    · rw [hq, hself]
    · rw [hother q hq]
  have hcode : ∀ q, (ts'.tn q).typeCode = (ts.tn q).typeCode := by
    intro q
    by_cases hq : q = p
    · rw [hq, hself]
    · rw [hother q hq]
  have hbelow : ∀ r q, q ∈ (ts'.tn r).sameTc.toList ↔
      (r = p ∧ q = n) ∨ q ∈ (ts.tn r).sameTc.toList := by
    intro r q
    by_cases hr : r = p
    · rw [hr, hself, R.toList_run, SearchTree.mem_link hlink]
      simp
    · rw [hother r hr]
      simp [hr]
  refine ⟨⟨fun buf => ?_, fun r => ?_, hi.rootsLt, fun r q hq => ?_⟩, fun b c q => ?_, hnode,
    hbelow⟩
  · exact SearchTree.sorted_congr rfl (fun q _ => hcode q) (hi.codes buf)
  · by_cases hr : r = p
    · rw [hr, hself]
      exact SearchTree.sorted_congr (R.toList_run n t) (fun q _ => hnode q)
        (SearchTree.link_key (hi.nodes p) hlink)
    · rw [hother r hr]
      exact SearchTree.sorted_congr rfl (fun q _ => hnode q) (hi.nodes r)
  · obtain ⟨-, rfl⟩ | hq := (hbelow r q).mp hq
    · exact hn
    · exact hi.belowLt r q hq
  · unfold IsRoot
    rw [hcode q]

/-- Linking the first type node of a code. -/
theorem typenode_root (hi : TypenodesOk ts) {n : Nat} {t : SearchTree Nat} (hn : n < ts.next)
    (hcode : (ts.tn n).typeCode = tc)
    (hlink : (ts.fileTypes buf).link (fun p => compare (ts.tn p).typeCode tc) n = some t) :
    let ts' := { ts with fileTypes := Function.update ts.fileTypes buf (R.run n t) }
    TypenodesOk ts' ∧
      ∀ b c q, IsRoot ts' b c q ↔ (b = buf ∧ q = n ∧ tc = c) ∨ IsRoot ts b c q := by
  intro ts'
  subst hcode
  have hself : ts'.fileTypes buf = R.run n t := Function.update_self ..
  have hother : ∀ b, b ≠ buf → ts'.fileTypes b = ts.fileTypes b := fun b hb =>
    Function.update_of_ne hb ..
  have hmem : ∀ b q, q ∈ (ts'.fileTypes b).toList ↔
      (b = buf ∧ q = n) ∨ q ∈ (ts.fileTypes b).toList := by
    intro b q
    by_cases hb : b = buf
    · rw [hb, hself, R.toList_run, SearchTree.mem_link hlink]
      simp
    · rw [hother b hb]
      simp [hb]
  refine ⟨⟨fun b => ?_, hi.nodes, fun b q hq => ?_, hi.belowLt⟩, fun b c q => ?_⟩
  · by_cases hb : b = buf
    · rw [hb, hself]
      exact SearchTree.sorted_congr (R.toList_run n t) (fun _ _ => rfl)
        (SearchTree.link_key (hi.codes buf) hlink)
    · rw [hother b hb]
      exact hi.codes b
  · obtain ⟨-, rfl⟩ | hq := (hmem b q).mp hq
    · exact hn
    · exact hi.rootsLt b q hq
  · unfold IsRoot
    rw [hmem b q]
    constructor
    · rintro ⟨⟨hb, hq⟩ | hq, hc⟩
      · exact Or.inl ⟨hb, hq, hq ▸ hc⟩
      · exact Or.inr ⟨hq, hc⟩
    · rintro (⟨hb, hq, hc⟩ | ⟨hq, hc⟩)
      · exact ⟨Or.inl ⟨hb, hq⟩, hq ▸ hc⟩
      · exact ⟨Or.inr hq, hc⟩

/-- **An inserted type node is found, and the other searches return what they returned.** -/
theorem typenodeInsert_facts (hi : TypenodesOk ts)
    (h : sibufTypenodeInsert R ts buf tc addr = some ts') : TypenodesOk ts' ∧
      sibufTypenodeSearch ts' buf tc addr = some ts.next ∧
      ∀ b c a q, sibufTypenodeSearch ts b c a = some q →
        sibufTypenodeSearch ts' b c a = some q := by
  have hia := hi.alloc tc addr
  have hn : ts.next < (ts.alloc tc addr).next := Nat.lt_succ_self _
  -- the new type node is in no tree yet
  have hold : ∀ b c a q, sibufTypenodeSearch ts b c a = some q →
      sibufTypenodeSearch (ts.alloc tc addr) b c a = some q := by
    intro b c a q hq
    obtain ⟨p, hp, hqa, hcase⟩ := (typenodeSearch_iff hi).mp hq
    have hplt := hi.rootsLt b p hp.1
    have hqlt : q < ts.next := by
      obtain rfl | ⟨-, hmem⟩ := hcase
      · exact hplt
      · exact hi.belowLt p q hmem
    refine (typenodeSearch_iff hia).mpr ⟨p, ⟨hp.1, ?_⟩, ?_, ?_⟩
    · rw [typenode_alloc_of_lt hplt]
      exact hp.2
    · rw [typenode_alloc_of_lt hqlt]
      exact hqa
    · rw [typenode_alloc_of_lt hplt]
      exact hcase
  unfold sibufTypenodeInsert at h
  simp only at h
  split at h
  · rename_i p hfind
    have hp := (find_root hia).mp hfind
    split at h
    · cases h
    rename_i haddr
    obtain ⟨t, hlink, rfl⟩ := Option.map_eq_some_iff.mp h
    obtain ⟨hok, hroot, hnode, hbelow⟩ := typenode_below hia hn
      (congrArg SibufTypenode.node (typenode_alloc_self ts tc addr)) hlink
    refine ⟨hok, (typenodeSearch_iff hok).mpr ⟨p, (hroot _ _ _).mpr hp, ?_, Or.inr ⟨?_, ?_⟩⟩,
      fun b c a q hq => ?_⟩
    · rw [hnode, typenode_alloc_self]
    · rw [hnode]
      exact haddr
    · exact (hbelow p ts.next).mpr (Or.inl ⟨rfl, rfl⟩)
    · obtain ⟨r, hr, hqa, hcase⟩ := (typenodeSearch_iff hia).mp (hold b c a q hq)
      refine (typenodeSearch_iff hok).mpr ⟨r, (hroot _ _ _).mpr hr, (hnode q).trans hqa, ?_⟩
      rw [hnode r, hbelow r q]
      exact hcase.imp_right fun ⟨hne, hmem⟩ => ⟨hne, Or.inr hmem⟩
  · obtain ⟨t, hlink, rfl⟩ := Option.map_eq_some_iff.mp h
    obtain ⟨hok, hroot⟩ := typenode_root hia hn
      (congrArg SibufTypenode.typeCode (typenode_alloc_self ts tc addr)) hlink
    refine ⟨hok, (typenodeSearch_iff hok).mpr ⟨ts.next,
      (hroot _ _ _).mpr (Or.inl ⟨rfl, rfl, rfl⟩), ?_, Or.inl rfl⟩, fun b c a q hq => ?_⟩
    · exact congrArg SibufTypenode.node (typenode_alloc_self ts tc addr)
    · obtain ⟨r, hr, hqa, hcase⟩ := (typenodeSearch_iff hia).mp (hold b c a q hq)
      exact (typenodeSearch_iff hok).mpr ⟨r, (hroot _ _ _).mpr (Or.inr hr), hqa, hcase⟩

/-! ## Steps -/

/-- The stores are in order. -/
structure BaseOk (src : BaseSrc) : Prop where
  sinodes : StoreInv src.sinodes
  typenodes : TypenodesOk src.typenodes

/-- What a search returns it goes on returning. -/
structure Retains (src src' : BaseSrc) : Prop where
  sinode : ∀ s p, sinodeSearch src.sinodes s = some p → sinodeSearch src'.sinodes s = some p
  typenode : ∀ b c a q, sibufTypenodeSearch src.typenodes b c a = some q →
    sibufTypenodeSearch src'.typenodes b c a = some q

theorem Retains.refl (src : BaseSrc) : Retains src src :=
  ⟨fun _ _ h => h, fun _ _ _ _ h => h⟩

theorem Retains.trans {src₁ src₂ src₃ : BaseSrc} (h : Retains src₁ src₂) (h' : Retains src₂ src₃) :
    Retains src₁ src₃ :=
  ⟨fun s p hp => h'.sinode s p (h.sinode s p hp),
    fun b c a q hq => h'.typenode b c a q (h.typenode b c a q hq)⟩

/-- The built-in resfile does not change once there is one. -/
def BuiltinStays (src : BaseSrc) (e : BaseEvent) : Prop :=
  ∀ rf, e = .addBuiltin rf → ∀ b, src.sinodes.builtin = some b → b = rf

/-- Replacements keep their key, and the built-in resfile stays. -/
def Orderly (Z : NodeSizes) (R : Recolor) (src : BaseSrc) (e : BaseEvent) : Prop :=
  ReplacesOwnKey Z R src e ∧ BuiltinStays src e

/-- **Carrying out a plan for a sinode.** -/
theorem runPlan_sinode (hi : BaseOk src) {s : Sinode} {plan : Plan} {r : Option Registered}
    (hflag : s.weakFlag = 0 ∨ s.weakFlag = -1) (hout : Decided src.sinodes s plan)
    (hown : ∀ p, plan = .insert s .replace (some p) → ∀ q,
      (src.sinodes.trees s.type).find (cmpName src.sinodes s.name) = some q →
      (s.type = .funcStatic ∨ s.datalen = (src.sinodes.sn q).datalen) →
      q = p ∧ s.key = (src.sinodes.sn p).key)
    (h : runPlan R src buf plan = some (src', r)) :
    BaseOk src' ∧ Retains src src' ∧
      ∃ p, r = some (.sinode p) ∧ sinodeSearch src'.sinodes s = some p := by
  have hretains : ∀ {sn : SinodeStore}, StoreInv sn → SnGrows src.sinodes sn →
      Retains src { src with sinodes := sn } := fun hsn hgrows =>
    ⟨fun _ _ hp => hgrows.search hi.sinodes hsn hp, fun _ _ _ _ hq => hq⟩
  have hout' := hout
  cases hout with
  | kept hsearch =>
    cases h
    exact ⟨hi, .refl src, _, rfl, hsearch⟩
  | fresh hsearch =>
    obtain ⟨sn, hins, hpair⟩ := Option.map_eq_some_iff.mp h
    cases hpair
    obtain ⟨-, -, hlink⟩ | ⟨_, _, hb, -⟩ := insert_cases hi.sinodes.toStoreBase hout' hins
    · have hsn := hi.sinodes.link hflag hlink
      have hmem := mem_linkNode hlink
      obtain ⟨hsame, -⟩ := linkNode_sn hlink
      refine ⟨⟨hsn, hi.typenodes⟩,
        hretains hsn (grows_link hi.sinodes (fun _ => hsearch) hlink), _, rfl,
        (sinodeSearch_iff hsn).mpr (Or.inl ⟨(hmem _ _).mpr (Or.inl ⟨?_, rfl⟩), ?_⟩)⟩
      · rw [alloc_self]
      · show (sn.sn src.sinodes.next).key = s.key
        rw [hsame, alloc_self]
    · cases hb
  | replaced hsearch hty =>
    obtain ⟨sn, hins, hpair⟩ := Option.map_eq_some_iff.mp h
    cases hpair
    obtain ⟨hb, -⟩ | ⟨p, q, -, hp, -, hq, hlen, rfl⟩ :=
      insert_cases hi.sinodes.toStoreBase hout' hins
    · cases hb
    cases hp
    obtain ⟨rfl, hkey⟩ := hown _ rfl q hq hlen
    obtain ⟨hmem, hname⟩ := sinodeSearch_mem hsearch
    have hsn := hi.sinodes.replace hflag hmem hname hkey.symm
    have hgrows := grows_replace hi.sinodes hmem hname hkey.symm
    exact ⟨⟨hsn, hi.typenodes⟩, hretains hsn hgrows, _, rfl, hgrows.search hi.sinodes hsn hsearch⟩

/-- **Carrying out a plan for a type node.** -/
theorem runPlan_typenode (hi : BaseOk src) {r : Option Registered}
    (h : runPlan R src buf (.typenode tc addr) = some (src', r)) :
    BaseOk src' ∧ Retains src src' ∧
      ∃ p, r = some (.typenode p) ∧ sibufTypenodeSearch src'.typenodes buf tc addr = some p := by
  simp only [runPlan] at h
  split at h
  · rename_i q hq
    cases h
    exact ⟨hi, .refl src, q, rfl, hq⟩
  · obtain ⟨ts, hins, hpair⟩ := Option.map_eq_some_iff.mp h
    cases hpair
    obtain ⟨hok, hself, hold⟩ := typenodeInsert_facts hi.typenodes hins
    exact ⟨⟨hi.sinodes, hok⟩, ⟨fun _ _ hp => hp, hold⟩, _, rfl, hself⟩

/-- Deciding makes at most the sinode of a file. -/
theorem planOf_retains (hi : BaseOk src) {sn : SinodeStore} {plan : Plan}
    (h : planOf Z R src e = some (sn, plan)) :
    BaseOk { src with sinodes := sn } ∧ Retains src { src with sinodes := sn } := by
  have hsn := storeInv_planOf hi.sinodes h
  have hgrows : SnGrows src.sinodes sn := by
    obtain ⟨rfl | ⟨file, hins⟩, -⟩ := planOf_cases hi.sinodes.flag h
    · exact .refl _
    · exact grows_link hi.sinodes (fun hg => by cases hg) (insertFile_link hins)
  exact ⟨⟨hsn, hi.typenodes⟩, fun _ _ hp => hgrows.search hi.sinodes hsn hp, fun _ _ _ _ hq => hq⟩

/-- A turn of a worker once it has decided. -/
theorem runPlan_retains (hi : BaseOk src) (hg : ReplacesOwnKey Z R src e) {sn : SinodeStore}
    {plan : Plan} {r : Option Registered} (hplan : planOf Z R src e = some (sn, plan))
    (h : runPlan R { src with sinodes := sn } buf plan = some (src', r)) :
    BaseOk src' ∧ Retains src src' := by
  obtain ⟨hok, hret⟩ := planOf_retains hi hplan
  obtain ⟨-, ⟨-, rfl | ⟨tc, addr, rfl⟩⟩ | ⟨s, hmade, hout⟩⟩ := planOf_cases hi.sinodes.flag hplan
  · cases h
    exact ⟨hok, hret⟩
  · obtain ⟨hok', hret', -⟩ := runPlan_typenode hok h
    exact ⟨hok', hret.trans hret'⟩
  · obtain ⟨hok', hret', -⟩ := runPlan_sinode hok hmade.flag hout
      (fun p hp q hq hlen => hg sn s p (hp ▸ hplan) q hq hlen) h
    exact ⟨hok', hret.trans hret'⟩

/-- **A step of the base phase keeps what searches return.** -/
theorem retains_step (hi : BaseOk src) (hg : Orderly Z R src e)
    (h : getbaseNext Z R src e = some src') : BaseOk src' ∧ Retains src src' := by
  obtain ⟨⟨_, r⟩, hstep, rfl⟩ := Option.map_eq_some_iff.mp h
  cases e with
  | gimple buf rf o | asmSym buf rf sym =>
    simp only [getbaseStep] at hstep
    split at hstep
    · cases hstep
    · rename_i sn plan hplan
      exact runPlan_retains hi hg.1 hplan hstep
  | asmFile buf srcfile =>
    simp only [getbaseStep] at hstep
    split at hstep
    · cases hstep
      exact ⟨⟨hi.sinodes, hi.typenodes⟩, fun _ _ hp => hp, fun _ _ _ _ hq => hq⟩
    · obtain ⟨sn, hins, hpair⟩ := Option.map_eq_some_iff.mp hstep
      cases hpair
      have hlink := insertFile_link hins
      have hsn := hi.sinodes.link (Or.inl rfl) hlink
      exact ⟨⟨hsn, hi.typenodes⟩, fun _ _ hp =>
        (grows_link hi.sinodes (fun hg => by cases hg) hlink).search hi.sinodes hsn hp,
        fun _ _ _ _ hq => hq⟩
  | addBuiltin rf =>
    cases hstep
    have hsn := storeInv_step hi.sinodes hg.1 h
    refine ⟨⟨hsn, hi.typenodes⟩, fun _ _ hp => SnGrows.search hi.sinodes hsn ?_ hp,
      fun _ _ _ _ hq => hq⟩
    exact grows_of_iff (fun _ _ _ => Iff.rfl) fun b hb => by rw [hg.2 rf rfl b hb]

theorem baseOk_empty (builtin : Option Nat) : BaseOk (.empty builtin) where
  sinodes := storeInv_empty builtin
  typenodes :=
    { codes := fun _ => List.Pairwise.nil
      nodes := fun _ => List.Pairwise.nil
      rootsLt := fun _ _ hp => by cases hp
      belowLt := fun _ _ hq => by cases hq }

/-! ## Lookups -/

/-- The lookups of an object return what it was registered as.  The object at `o.realAddr` is in
    the sibuf `buf` of the resfile `rf`. -/
def LookedUp (src : BaseSrc) (typeAt : Nat → Option (Nat × TypeTree)) (buf rf : Nat)
    (o : TreeObj) (r : Registered) : Prop :=
  match o.node with
  | .type t => typeAt o.realAddr = some (buf, t) →
      getTypeXnode src typeAt o.realAddr = some (some r) ∧
      -- so do the types it is the canonical one of, in whatever sibuf they are
      ∀ node b v, typeAt node = some (b, v) → v.canonical = o.realAddr → node ≠ o.realAddr →
        o.realAddr ≠ 0 → (getTypeName v).isSome → getTypeXnode src typeAt node = some (some r)
  | .function f => ∃ p, r = .sinode p ∧
      (∀ flag, getFuncSinode src.sinodes rf f flag = some (some p)) ∧
      -- so do the declarations of a global function in its resfile
      ∀ g, checkFileFunc f = some .global → checkFileFunc g = some .external →
        getFunctionName g = getFunctionName f → getFuncSinode src.sinodes rf g true = some (some p)
  | .globalVar v => ∃ p, r = .sinode p ∧
      (∀ flag, getVarSinode src.sinodes rf o.realAddr v flag = some (some p)) ∧
      ∀ node w, checkFileVar v = some .global → checkFileVar w = some .external →
        getVarName node w = getVarName o.realAddr v →
        getVarSinode src.sinodes rf node w true = some (some p)
  | .other => False

/-- The file of a place has its sinode. -/
def FileFound (st : SinodeStore) (xloc : Option XLoc) (locFile : Option Nat) : Prop :=
  (xloc.bind XLoc.file = none ∧ locFile = none) ∨ ∃ file p, xloc.bind XLoc.file = some file ∧
    locFile = some p ∧ sinodeSearchFile st file = some p

/-- The object is registered as `r` under its key. -/
def Placed (Z : NodeSizes) (src : BaseSrc) (buf rf : Nat) (o : TreeObj) (r : Registered) : Prop :=
  ∃ ty₀ name₀ xloc locFile, classifyObj o = some (.symbol ty₀ name₀ xloc) ∧
    FileFound src.sinodes xloc locFile ∧
    ((∃ t name p, o.node = .type t ∧ finishName o ty₀ name₀ xloc locFile = some (none, name) ∧
        r = .typenode p ∧ sibufTypenodeSearch src.typenodes buf t.code o.realAddr = some p) ∨
      ∃ ty name p, finishName o ty₀ name₀ xloc locFile = some (some ty, name) ∧ ty ≠ .file ∧
        name ≠ [] ∧ (ty.isGlobal = false → locFile.isSome) ∧ r = .sinode p ∧
        sinodeSearch src.sinodes (gimpleSinode Z ⟨buf, rf, .gimple⟩ o ty name xloc locFile) =
          some p)

variable {rf : Nat} {o : TreeObj} {r : Registered}

theorem Placed.mono (h : Placed Z src buf rf o r) (hret : Retains src src') :
    Placed Z src' buf rf o r := by
  obtain ⟨ty₀, name₀, xloc, locFile, hclass, hfile, hcase⟩ := h
  refine ⟨ty₀, name₀, xloc, locFile, hclass, ?_, ?_⟩
  · obtain hnone | ⟨file, p, hx, hp, hsearch⟩ := hfile
    · exact Or.inl hnone
    · exact Or.inr ⟨file, p, hx, hp, hret.sinode (sinodeNew .file file) p hsearch⟩
  · obtain ⟨t, name, p, ht, hname, hr, hsearch⟩ |
        ⟨ty, name, p, hname, hty, hne, hlf, hr, hsearch⟩ := hcase
    · exact Or.inl ⟨t, name, p, ht, hname, hr, hret.typenode _ _ _ _ hsearch⟩
    · exact Or.inr ⟨ty, name, p, hname, hty, hne, hlf, hr, hret.sinode _ _ hsearch⟩

/-- The file of a symbol is found once it is there. -/
theorem locFileSinode_found (hi : StoreInv st) {xloc : Option XLoc} {locFile : Option Nat}
    (h : locFileSinode R st xloc = some (st', locFile)) : FileFound st' xloc locFile := by
  unfold locFileSinode at h
  split at h
  · rename_i hnone
    cases h
    exact Or.inl ⟨hnone, rfl⟩
  · rename_i file hfile
    split at h
    · rename_i p hp
      cases h
      exact Or.inr ⟨file, p, hfile, rfl, hp⟩
    · obtain ⟨sn, hins, hpair⟩ := Option.map_eq_some_iff.mp h
      cases hpair
      have hlink := insertFile_link hins
      have hsn := hi.link (Or.inl rfl) hlink
      obtain ⟨hsame, -⟩ := linkNode_sn hlink
      have hown : HasKey st' .file (sinodeNew .file file).key st.next := by
        refine ⟨(mem_linkNode hlink _ _).mpr (Or.inl ⟨by rw [alloc_self]; rfl, rfl⟩), ?_⟩
        rw [hsame, alloc_self]
      exact Or.inr ⟨file, _, hfile, rfl,
        (sinodeSearch_iff (s := sinodeNew .file file) hsn).mpr (Or.inl hown)⟩

/-- A symbol that goes on has a name, and a place unless it is global. -/
theorem gimplePlan_place {buf : SymBuf} {ty : SinodeType} {name : Name} {xloc : Option XLoc}
    {locFile : Option Nat} {plan : Plan}
    (h : gimplePlan Z st buf o ty name xloc locFile = some plan) :
    name ≠ [] ∧ (ty.isGlobal = false → locFile.isSome) := by
  unfold gimplePlan at h
  simp only at h
  split at h
  · cases h
  rename_i hok
  refine ⟨fun hname => hok (Or.inl hname), fun hty => ?_⟩
  by_contra hlf
  refine hok (Or.inr ⟨?_, ?_⟩)
  · rintro (rfl | rfl) <;> cases hty
  · cases locFile with
    | none => rfl
    | some _ => exact absurd rfl hlf

/-- **The base phase registers an object under its key.** -/
theorem placed_step (hi : BaseOk src) (hg : ReplacesOwnKey Z R src (.gimple buf rf o))
    (h : getbaseStep Z R src (.gimple buf rf o) = some (src', some r)) :
    Placed Z src' buf rf o r := by
  simp only [getbaseStep] at h
  split at h
  · cases h
  rename_i sn plan hplan
  obtain ⟨hok, hret⟩ := planOf_retains hi hplan
  obtain ⟨rfl, rfl, -⟩ | ⟨ty₀, name₀, xloc, locFile, hclass, hloc, hcase⟩ :=
    gimpleDecide_cases (show gimpleDecide Z R src.sinodes ⟨buf, rf, .gimple⟩ o = _ from hplan)
  · cases h
  have hfile := locFileSinode_found hi.sinodes hloc
  have hkeep : ∀ {src'}, Retains { src with sinodes := sn } src' →
      FileFound src'.sinodes xloc locFile := by
    intro src' hret'
    obtain hnone | ⟨file, p, hx, hp, hsearch⟩ := hfile
    · exact Or.inl hnone
    · exact Or.inr ⟨file, p, hx, hp, hret'.sinode (sinodeNew .file file) p hsearch⟩
  obtain ⟨t, name, ht, hname, rfl⟩ | ⟨ty, name, hty, hname, hgp⟩ := hcase
  · obtain ⟨-, hret', p, hr, hsearch⟩ := runPlan_typenode hok h
    cases hr
    exact ⟨ty₀, name₀, xloc, locFile, hclass, hkeep hret',
      Or.inl ⟨t, name, p, ht, hname, rfl, hsearch⟩⟩
  · have hout := gimplePlan_outcome hty hgp
    have hmade : MadeFrom Z (.gimple buf rf o)
        (gimpleSinode Z ⟨buf, rf, .gimple⟩ o ty name xloc locFile) := .object hclass hname
    obtain ⟨-, hret', p, hr, hsearch⟩ := runPlan_sinode hok hmade.flag hout
      (fun p hp q hq hlen => hg sn _ p (hp ▸ hplan) q hq hlen) h
    cases hr
    obtain ⟨hne, hlf⟩ := gimplePlan_place hgp
    exact ⟨ty₀, name₀, xloc, locFile, hclass, hkeep hret',
      Or.inr ⟨ty, name, p, hname, hty, hne, hlf, rfl, hsearch⟩⟩

/-! ## From the tree to the sinode -/

theorem search_gimple_global {buf : SymBuf} {ty : SinodeType} {name : Name} {xloc : Option XLoc}
    {locFile : Option Nat} (hty : ty = .funcGlobal ∨ ty = .varGlobal) :
    sinodeSearch st (gimpleSinode Z buf o ty name xloc locFile) =
      sinodeSearchNameResfile st ty buf.rf st.builtin name := by
  have hfacts := gimpleSinode_facts Z buf o ty name xloc locFile
  simp only at hfacts
  obtain ⟨hsty, hname, hbuf, -⟩ := hfacts
  obtain rfl | rfl := hty <;> simp only [sinodeSearch, hsty, hname, hbuf]

theorem search_gimple_place {buf : SymBuf} {ty : SinodeType} {name : Name} {xloc : XLoc}
    {p : Nat} (hty : ty = .type ∨ ty = .funcStatic ∨ ty = .varStatic) :
    sinodeSearch st (gimpleSinode Z buf o ty name (some xloc) (some p)) =
      sinodeSearchNameLoc st ty (some p) xloc.line xloc.column name := by
  have hfacts := gimpleSinode_facts Z buf o ty name (some xloc) (some p)
  simp only at hfacts
  obtain ⟨hsty, hname, -, hlf, -, -, hplace⟩ := hfacts
  obtain ⟨hline, hcol⟩ := hplace rfl
  obtain rfl | rfl | rfl := hty <;>
  simp only [sinodeSearch, hsty, hname, hlf, hline, hcol, Option.map_some, Option.getD_some]

/-- A symbol keeps the type and the name that its tree gives it. -/
theorem finishName_symbol {ty : SinodeType} {name name' : Name} {xloc : Option XLoc}
    {locFile : Option Nat} {ty' : Option SinodeType}
    (h : finishName o (some ty) name xloc locFile = some (ty', name')) :
    ty' = some ty ∧ name' = name := by
  obtain h | ⟨h, -⟩ := finishName_cases h
  · exact h
  · cases h

theorem Placed.function {f : FuncTree} (hnode : o.node = .function f)
    (h : Placed Z src buf rf o r) : ∃ p, r = .sinode p ∧
      (∀ flag, getFuncSinode src.sinodes rf f flag = some (some p)) ∧
      ∀ g, checkFileFunc f = some .global → checkFileFunc g = some .external →
        getFunctionName g = getFunctionName f →
        getFuncSinode src.sinodes rf g true = some (some p) := by
  obtain ⟨ty₀, name₀, xloc, locFile, hclass, hfile, hcase⟩ := h
  obtain ⟨t, name, p, ht, -⟩ | ⟨ty, name, p, hname, hty, hne, hlf, rfl, hsearch⟩ := hcase
  · rw [hnode] at ht
    cases ht
  refine ⟨p, rfl, ?_⟩
  simp only [classifyObj, hnode] at hclass
  split at hclass
  · cases hclass
  · cases hclass
  · rename_i hstatic
    obtain ⟨nm, hnm, hsym⟩ := Option.map_eq_some_iff.mp hclass
    cases hsym
    obtain ⟨hty', rfl⟩ := finishName_symbol hname
    cases hty'
    obtain ⟨-, rfl⟩ | ⟨file, lf, hx, rfl, hf⟩ := hfile
    · cases hlf rfl
    rw [search_gimple_place (Or.inr (Or.inl rfl))] at hsearch
    refine ⟨fun flag => ?_, fun g hg => ?_⟩
    · have hx : f.loc.file = some file := hx
      simp only [getFuncSinode, hnm, hstatic, Option.bind_some, hx, hf, Option.map_some, hsearch]
    · rw [hstatic] at hg
      cases hg
  · rename_i hglobal
    obtain ⟨nm, hnm, hsym⟩ := Option.map_eq_some_iff.mp hclass
    cases hsym
    obtain ⟨hty', rfl⟩ := finishName_symbol hname
    cases hty'
    rw [search_gimple_global (Or.inl rfl)] at hsearch
    refine ⟨fun flag => ?_, fun g _ hext hgname => ?_⟩
    · simp only [getFuncSinode, hnm, hglobal, Option.bind_some, hsearch, Option.map_some]
    · simp only [getFuncSinode, hgname, hnm, hext, Option.bind_some, hsearch, if_true]

theorem Placed.globalVar {v : VarTree} (hnode : o.node = .globalVar v)
    (h : Placed Z src buf rf o r) : ∃ p, r = .sinode p ∧
      (∀ flag, getVarSinode src.sinodes rf o.realAddr v flag = some (some p)) ∧
      ∀ node w, checkFileVar v = some .global → checkFileVar w = some .external →
        getVarName node w = getVarName o.realAddr v →
        getVarSinode src.sinodes rf node w true = some (some p) := by
  obtain ⟨ty₀, name₀, xloc, locFile, hclass, hfile, hcase⟩ := h
  obtain ⟨t, name, p, ht, -⟩ | ⟨ty, name, p, hname, hty, hne, hlf, rfl, hsearch⟩ := hcase
  · rw [hnode] at ht
    cases ht
  refine ⟨p, rfl, ?_⟩
  simp only [classifyObj, hnode] at hclass
  split at hclass
  · cases hclass
  · cases hclass
  · cases hclass
  · rename_i hstatic
    obtain ⟨nm, hnm, hsym⟩ := Option.map_eq_some_iff.mp hclass
    cases hsym
    obtain ⟨hty', rfl⟩ := finishName_symbol hname
    cases hty'
    obtain ⟨-, rfl⟩ | ⟨file, lf, hx, rfl, hf⟩ := hfile
    · cases hlf rfl
    rw [search_gimple_place (Or.inr (Or.inr rfl))] at hsearch
    refine ⟨fun flag => ?_, fun node w hw => ?_⟩
    · have hx : v.loc.file = some file := hx
      simp only [getVarSinode, hnm, hstatic, Option.bind_some, hx, hf, Option.map_some, hsearch]
    · rw [hstatic] at hw
      cases hw
  · rename_i hglobal
    obtain ⟨nm, hnm, hsym⟩ := Option.map_eq_some_iff.mp hclass
    cases hsym
    obtain ⟨hty', rfl⟩ := finishName_symbol hname
    cases hty'
    rw [search_gimple_global (Or.inr rfl)] at hsearch
    refine ⟨fun flag => ?_, fun node w _ hext hwname => ?_⟩
    · simp only [getVarSinode, hnm, hglobal, Option.bind_some, hsearch, Option.map_some]
    · simp only [getVarSinode, hwname, hnm, hext, Option.bind_some, hsearch, if_true]

/-- The search for a type finds what it was registered as. -/
theorem Placed.searchType {t : TypeTree} (hnode : o.node = .type t)
    (h : Placed Z src buf rf o r) : checkFileType o.realAddr t = .defined ∧
      (getTypeName t).isSome ∧ searchType src buf o.realAddr t = some (some r) := by
  obtain ⟨ty₀, name₀, xloc, locFile, hclass, hfile, hcase⟩ := h
  simp only [classifyObj, hnode] at hclass
  split at hclass
  · cases hclass
  · cases hclass
  rename_i hdefined
  obtain ⟨nm, hnm, hsym⟩ := Option.map_eq_some_iff.mp hclass
  cases hsym
  refine ⟨hdefined, by rw [hnm]; rfl, ?_⟩
  obtain ⟨hnone, rfl⟩ | ⟨file, lf, hx, rfl, hf⟩ := hfile
  · -- no place, so a type node
    rw [hnone] at hcase
    obtain ⟨t', name, p, ht, -, rfl, hsearch⟩ | ⟨ty, name, p, hname, -⟩ := hcase
    · rw [hnode] at ht
      cases ht
      simp only [Analysis.searchType, hnm, Option.bind_some, hnone, hsearch, Option.map_some]
    · simp [finishName] at hname
  obtain ⟨x, hxloc, hxfile⟩ := Option.bind_eq_some_iff.mp hx
  rw [hx, hxloc] at hcase
  by_cases hempty : name₀ = []
  · -- the name is generated on both sides
    subst hempty
    simp only [finishName, hnode, ne_eq, not_true_eq_false, false_and, if_false, if_true] at hcase
    obtain ⟨t', name, p, ht, hname, rfl, hsearch⟩ |
        ⟨ty, name, p, hname, -, hne, -, rfl, hsearch⟩ := hcase
    · cases ht
      obtain ⟨gen, hgen, hpair⟩ := Option.map_eq_some_iff.mp hname
      simp only [Prod.mk.injEq] at hpair
      obtain ⟨hty, rfl⟩ := hpair
      have hgen' : gen = [] := by
        by_contra hne
        rw [if_pos hne] at hty
        cases hty
      simp only [Analysis.searchType, hnm, Option.bind_some, hxloc, hxfile, hf, hgen, hgen',
        if_true, Option.map_some, ne_eq, not_true_eq_false, if_false, hsearch]
    · obtain ⟨gen, hgen, hpair⟩ := Option.map_eq_some_iff.mp hname
      simp only [Prod.mk.injEq] at hpair
      obtain ⟨hty, rfl⟩ := hpair
      rw [if_pos hne] at hty
      cases hty
      rw [search_gimple_place (Or.inl rfl)] at hsearch
      simp only [Analysis.searchType, hnm, Option.bind_some, hxloc, hxfile, hf, hgen, if_true,
        Option.map_some, ne_eq, hne, not_false_eq_true, hsearch]
  · rw [if_pos ⟨hempty, rfl⟩] at hcase
    obtain ⟨t', name, p, ht, hname, -⟩ | ⟨ty, name, p, hname, -, hne, -, rfl, hsearch⟩ := hcase
    · cases (finishName_symbol hname).1
    · obtain ⟨hty, rfl⟩ := finishName_symbol hname
      cases hty
      rw [search_gimple_place (Or.inl rfl)] at hsearch
      simp only [Analysis.searchType, hnm, Option.bind_some, hxloc, hxfile, hf, hempty, if_false,
        Option.map_some, ne_eq, not_false_eq_true, if_true, hsearch]

theorem Placed.lookedUp {typeAt : Nat → Option (Nat × TypeTree)} (h : Placed Z src buf rf o r) :
    LookedUp src typeAt buf rf o r := by
  unfold LookedUp
  split
  · rename_i t hnode
    intro hat
    obtain ⟨hdefined, hname, hsearch⟩ := h.searchType hnode
    obtain ⟨nm, hnm⟩ := Option.isSome_iff_exists.mp hname
    refine ⟨?_, fun node b v hv hcanon hne h0 hvname => ?_⟩
    · simp only [getTypeXnode, hat, hnm, hdefined, Option.bind_some, hsearch]
    · obtain ⟨vn, hvn⟩ := Option.isSome_iff_exists.mp hvname
      have hflag : checkFileType node v = .canonicaled := by
        unfold checkFileType
        rw [hcanon, if_neg h0, if_pos (Ne.symm hne)]
      simp only [getTypeXnode, hv, hvn, hflag, Option.bind_some, hcanon, hat, hsearch]
  · rename_i f hnode
    exact h.function hnode
  · rename_i v hnode
    exact h.globalVar hnode
  · rename_i hnode
    obtain ⟨ty₀, name₀, xloc, locFile, hclass, -⟩ := h
    simp only [classifyObj, hnode] at hclass
    cases hclass

/-- **The lookups return what the base phase registered.**  Whatever the other workers do before
    and after an object has been registered, the later phases find it, as long as replacements keep
    their keys and the built-in resfile stays. -/
theorem lookups_agree (builtin : Option Nat) (typeAt : Nat → Option (Nat × TypeTree))
    {pre post : List BaseEvent} {src₁ src₂ : BaseSrc}
    (hg : Along (getbaseNext Z R) (Orderly Z R) (.empty builtin) (pre ++ .gimple buf rf o :: post))
    (hpre : exec (getbaseNext Z R) (.empty builtin) pre = some src₁)
    (hstep : getbaseStep Z R src₁ (.gimple buf rf o) = some (src₂, some r))
    (hpost : exec (getbaseNext Z R) src₂ post = some src) : LookedUp src typeAt buf rf o r := by
  obtain ⟨hi₁, -⟩ := rel_of_along (fun _ _ _ hi hg h => retains_step hi hg h) Retains.refl
    (fun _ _ _ => Retains.trans) (baseOk_empty builtin) hg.front hpre
  obtain ⟨hown, hrest⟩ := hg.rest hpre
  have hnext : getbaseNext Z R src₁ (.gimple buf rf o) = some src₂ := by
    rw [getbaseNext, hstep]
    rfl
  obtain ⟨hi₂, -⟩ := retains_step hi₁ hown hnext
  obtain ⟨-, hret⟩ := rel_of_along (fun _ _ _ hi hg h => retains_step hi hg h) Retains.refl
    (fun _ _ _ => Retains.trans) hi₂ (hrest src₂ hnext) hpost
  exact ((placed_step hi₁ hown.1 hstep).mono hret).lookedUp

/-- The resfile 1 has a weak `f` and then a strong one; it becomes the built-in resfile before
    another `f` comes along. -/
theorem replaced_looked_up : ∃ src, exec (getbaseNext smallSizes .id) (.empty none)
      [.gimple 0 1 (smallFunction true 1), .gimple 1 1 (smallFunction false 2), .addBuiltin 1,
        .gimple 2 2 (smallFunction false 3)] = some src ∧
    LookedUp src (fun _ => none) 1 1 (smallFunction false 2) (.sinode 1) := by
  have hg : Along (getbaseNext smallSizes .id) (Orderly smallSizes .id) (.empty none)
      ([.gimple 0 1 (smallFunction true 1)] ++ .gimple 1 1 (smallFunction false 2) ::
        [.addBuiltin 1, .gimple 2 2 (smallFunction false 3)]) := by
    refine ⟨⟨fun _ _ _ h => (by cases h), fun _ h => (by cases h)⟩, fun _ hs => ?_⟩
    cases hs
    refine ⟨⟨fun _ _ _ h q hq _ => ?_, fun _ h => (by cases h)⟩, fun _ hs => ?_⟩
    · -- the strong symbol has the key of the weak one
      cases h
      cases hq
      exact ⟨rfl, rfl⟩
    cases hs
    refine ⟨⟨fun _ _ _ h => (by cases h), fun _ _ _ hb => (by cases hb)⟩, fun _ hs => ?_⟩
    cases hs
    exact ⟨⟨fun _ _ _ h => (by cases h), fun _ h => (by cases h)⟩, fun _ _ => trivial⟩
  exact ⟨_, rfl, lookups_agree none (fun _ => none) hg rfl rfl rfl⟩

end Srcinv.Analysis
