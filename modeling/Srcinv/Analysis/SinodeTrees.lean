import Srcinv.Lib.Run
import Srcinv.Analysis.SinodeNames

/-!
# The trees of the sinode store over whole runs

A sinode is found again by the key it was inserted under: its name with its resfile, or with its
place.  A replacement moves buffer and place of the new sinode into a linked one, so it can move
the key of that sinode.

* `trees_exact` — over every run of the base phase, the trees stay search trees, a replacement
  changes exactly the sinode that the search returned, and every inserted key is found, exactly
  when each replacement meets the searched sinode first and has the same key.
* `strong_symbol_takes_builtin_key` — a strong symbol that replaces a weak one of the built-in
  resfile takes its key away.
-/

namespace Srcinv.Analysis

open Srcinv.Lib

/-! ## Keys -/

/-- What makes a symbol of its type unique. -/
structure SpecKey where
  name : Name
  pos : List Int
  deriving DecidableEq, Repr

instance : Ord SpecKey := ⟨fun a b => (compare a.name b.name).then (compare a.pos b.pos)⟩

theorem compare_specKey (a b : SpecKey) :
    compare a b = (compare a.name b.name).then (compare a.pos b.pos) := rfl

instance : Std.TransOrd SpecKey :=
  inferInstanceAs (Std.TransCmp (compareLex (compareOn SpecKey.name) (compareOn SpecKey.pos)))

instance : Std.LawfulEqOrd SpecKey where
  eq_of_compare {a b} h := by
    rw [compare_specKey, Ordering.then_eq_eq] at h
    obtain ⟨an, ap⟩ := a
    obtain ⟨bn, bp⟩ := b
    obtain rfl := Std.LawfulEqCmp.eq_of_compare h.1
    obtain rfl := Std.LawfulEqCmp.eq_of_compare h.2
    rfl

/-- The key of a sinode. -/
def Sinode.key (s : Sinode) : SpecKey :=
  match s.type with
  | .file => ⟨s.name, []⟩
  | .funcGlobal | .varGlobal => ⟨s.name, [(s.buf.rf : Int)]⟩
  | .type | .funcStatic | .varStatic =>
    ⟨s.name, [(ptr s.locFile : Int), s.locLine, s.locCol]⟩

theorem compare_cast (a b : Nat) : compare (a : Int) (b : Int) = compare a b := by
  simp only [compare, compareOfLessAndEq, Int.ofNat_lt, Int.natCast_inj]

/-- Lists compare element by element. -/
theorem compare_cons (a b : Int) (as bs : List Int) :
    compare (a :: as) (b :: bs) = (compare a b).then (compare as bs) :=
  List.compareLex_cons_cons

variable {st st' : SinodeStore} {Z : NodeSizes} {R : Recolor} {src src' : BaseSrc} {e : BaseEvent}

/-- **The walks of the code compare keys.** -/
theorem keyWalk_eq {s : Sinode} {p : Nat} (hp : (st.sn p).type = s.type) :
    keyWalk st s p = compare (st.sn p).key s.key := by
  have hrf : compare [((st.sn p).buf.rf : Int)] [(s.buf.rf : Int)] =
      compare (st.sn p).buf.rf s.buf.rf := by
    rw [compare_cons, compare_cast]
    exact Ordering.then_eq
  have hloc : compare [(ptr (st.sn p).locFile : Int), (st.sn p).locLine, (st.sn p).locCol]
      [(ptr s.locFile : Int), s.locLine, s.locCol] =
        (compare (ptr (st.sn p).locFile) (ptr s.locFile)).then
          ((compare (st.sn p).locLine s.locLine).then (compare (st.sn p).locCol s.locCol)) := by
    rw [compare_cons, compare_cons, compare_cons, compare_cast]
    rw [show compare ([] : List Int) [] = .eq from rfl, Ordering.then_eq]
  cases hty : s.type with
  | file =>
    simp only [keyWalk, cmpName, Sinode.key, hp, hty, compare_specKey]
    exact Ordering.then_eq.symm
  | funcGlobal | varGlobal =>
    simp only [keyWalk, cmpNameResfile, Sinode.key, hp, hty, compare_specKey, hrf]
  | type | funcStatic | varStatic =>
    simp only [keyWalk, cmpNameLoc, Sinode.key, hp, hty, compare_specKey, hloc]

/-! ## The invariant -/

/-- The trees are search trees of their sinodes, and hold exactly the inserted keys. -/
structure StoreInv (st : SinodeStore) : Prop extends StoreBase st where
  sorted : ∀ ty, (st.trees ty).Sorted fun p => (st.sn p).key
  kept : ∀ s ∈ st.inserted, ∃ p ∈ (st.trees s.type).toList, (st.sn p).key = s.key
  origin : ∀ ty, ∀ p ∈ (st.trees ty).toList,
    ∃ s ∈ st.inserted, s.type = ty ∧ s.key = (st.sn p).key

/-- The trees are search trees, and each inserted key is found by a search for it. -/
def TreesRight (st : SinodeStore) : Prop :=
  (∀ ty, (st.trees ty).Sorted fun p => (st.sn p).key) ∧
    ∀ s ∈ st.inserted, ∃ p, sinodeSearch st s = some p ∧ (st.sn p).key = s.key

/-- The walk by a key that is in the tree finds the node that has it. -/
theorem find_keyWalk (hi : StoreInv st) {s : Sinode} {p : Nat}
    (hp : p ∈ (st.trees s.type).toList) (hk : (st.sn p).key = s.key) :
    (st.trees s.type).find (keyWalk st s) = some p := by
  rw [SearchTree.find_congr fun a ha => keyWalk_eq (hi.typed _ a ha).1]
  refine (SearchTree.find_key (hi.sorted s.type)).mpr ⟨hp, ?_⟩
  rw [hk]
  exact Std.ReflCmp.compare_self

theorem StoreInv.treesRight (hi : StoreInv st) : TreesRight st := by
  refine ⟨hi.sorted, fun s hs => ?_⟩
  obtain ⟨p, hp, hk⟩ := hi.kept s hs
  exact ⟨p, sinodeSearch_own (find_keyWalk hi hp hk), hk⟩

/-! ## What an insertion keeps -/

/-- A change that leaves type and key of the linked sinodes alone. -/
theorem StoreInv.frame (hi : StoreInv st) (hbase : StoreBase st') (htrees : st'.trees = st.trees)
    (hins : st'.inserted = st.inserted) (hsn : ∀ ty, ∀ p ∈ (st.trees ty).toList,
      (st'.sn p).key = (st.sn p).key) : StoreInv st' where
  toStoreBase := hbase
  sorted ty := by
    rw [htrees]
    exact SearchTree.sorted_congr rfl (hsn ty) (hi.sorted ty)
  kept s hs := by
    rw [hins] at hs
    obtain ⟨p, hp, hk⟩ := hi.kept s hs
    exact ⟨p, htrees ▸ hp, (hsn _ p hp).trans hk⟩
  origin ty p hp := by
    rw [htrees] at hp
    obtain ⟨s, hs, hty, hk⟩ := hi.origin ty p hp
    exact ⟨s, hins ▸ hs, hty, hk.trans (hsn ty p hp).symm⟩

/-- **Linking a new sinode by its key.** -/
theorem StoreInv.link (hi : StoreInv st) {s : Sinode} (hflag : s.weakFlag = 0 ∨ s.weakFlag = -1)
    (h : linkNode (st.alloc s) R (keyWalk (st.alloc s) s) st.next = some st') :
    StoreInv st' := by
  have hbase := hi.toStoreBase.link hflag h
  have hia : StoreInv (st.alloc s) := hi.frame (hi.alloc hflag) rfl rfl fun ty p hp => by
    rw [alloc_of_lt s (hi.typed ty p hp).2]
  obtain ⟨hsn, -, -, hins⟩ := linkNode_sn h
  rw [alloc_self] at hins
  have hmem := mem_linkNode h
  rw [alloc_self] at hmem
  refine ⟨hbase, fun ty => ?_, fun t ht => ?_, fun ty a ha => ?_⟩
  · by_cases hty : ty = s.type
    · -- in the tree of the new sinode the walk compares its key
      subst hty
      rw [hsn]
      refine order_linkNode h (fun a ha hgt => ?_) (fun a ha hlt => ?_)
        (fun a b c => Std.TransCmp.lt_trans) (hia.sorted s.type)
      · rw [keyWalk_eq (hia.typed _ a ha).1] at hgt
        show compare ((st.alloc s).sn st.next).key _ = .lt
        rw [alloc_self]
        exact Std.OrientedCmp.lt_of_gt hgt
      · rw [keyWalk_eq (hia.typed _ a ha).1] at hlt
        show compare _ ((st.alloc s).sn st.next).key = .lt
        rw [alloc_self]
        exact hlt
    · have htree : st'.trees ty = (st.alloc s).trees ty := by
        obtain ⟨t, -, rfl⟩ := Option.map_eq_some_iff.mp h
        rw [← alloc_self st s] at hty
        exact Function.update_of_ne hty ..
      rw [htree, hsn]
      exact hia.sorted ty
  · rw [hins] at ht
    rw [hsn]
    obtain rfl | ht := List.mem_cons.mp ht
    · exact ⟨st.next, (hmem _ _).mpr (Or.inl ⟨rfl, rfl⟩), by rw [alloc_self]⟩
    · obtain ⟨p, hp, hk⟩ := hia.kept t ht
      exact ⟨p, (hmem _ _).mpr (Or.inr hp), hk⟩
  · rw [hins, hsn]
    obtain ⟨hty, rfl⟩ | ha := (hmem ty a).mp ha
    · exact ⟨s, List.mem_cons_self, hty.symm, by rw [alloc_self]⟩
    · obtain ⟨t, ht, htty, hk⟩ := hia.origin ty a ha
      exact ⟨t, List.mem_cons_of_mem _ ht, htty, hk⟩

/-- Registering a key that a linked sinode has. -/
theorem StoreInv.register (hi : StoreInv st) {s : Sinode} {p : Nat}
    (hp : p ∈ (st.trees s.type).toList) (hk : (st.sn p).key = s.key) :
    StoreInv { st with inserted := s :: st.inserted } where
  toStoreBase := ⟨hi.typed, hi.flag, hi.named⟩
  sorted := hi.sorted
  kept t ht := by
    obtain rfl | ht := List.mem_cons.mp ht
    · exact ⟨p, hp, hk⟩
    · exact hi.kept t ht
  origin ty a ha := by
    obtain ⟨t, ht, hty, hkey⟩ := hi.origin ty a ha
    exact ⟨t, List.mem_cons_of_mem _ ht, hty, hkey⟩

/-- The key follows the data. -/
theorem key_withData {t s : Sinode} (hty : t.type = s.type) (hname : t.name = s.name) :
    ({ t with toSinodeData := s.toSinodeData } : Sinode).key = s.key := by
  simp only [Sinode.key, hty, hname]

/-- **Replacing by a sinode of the same key.** -/
theorem StoreInv.replace (hi : StoreInv st) {s : Sinode} {q : Nat}
    (hflag : s.weakFlag = 0 ∨ s.weakFlag = -1) (hq : q ∈ (st.trees s.type).toList)
    (hname : (st.sn q).name = s.name) (hk : (st.sn q).key = s.key) :
    StoreInv (sinodeInsertDoReplace (st.alloc s) q st.next) := by
  have hbase : StoreBase (sinodeInsertDoReplace (st.alloc s) q st.next) :=
    hi.toStoreBase.replace hflag
  have hsn : ∀ ty, ∀ p ∈ (st.trees ty).toList,
      ((sinodeInsertDoReplace (st.alloc s) q st.next).sn p).key = (st.sn p).key := by
    intro ty p hp
    rw [replace_sn s (hi.typed ty p hp).2]
    split
    · rename_i hpq
      rw [hpq]
      exact (key_withData (hi.typed _ q hq).1 hname).trans hk.symm
    · rfl
  have hframe : StoreInv { sinodeInsertDoReplace (st.alloc s) q st.next with
      inserted := st.inserted } :=
    hi.frame ⟨hbase.typed, hbase.flag, hbase.named⟩ rfl rfl hsn
  have hreg := hframe.register (s := s) hq ((hsn _ q hq).trans hk)
  simpa only [sinodeInsertDoReplace, alloc_self, alloc_inserted] using hreg

/-- Deciding keeps the invariant. -/
theorem storeInv_planOf (hi : StoreInv src.sinodes) {sn : SinodeStore} {plan : Plan}
    (h : planOf Z R src e = some (sn, plan)) : StoreInv sn := by
  obtain ⟨rfl | ⟨file, hins⟩, -⟩ := planOf_cases hi.flag h
  · exact hi
  · exact hi.link (Or.inl rfl) (insertFile_link hins)

/-! ## Replacements -/

/-- Each replacement meets the searched sinode first, and has its key. -/
def ReplacesOwnKey (Z : NodeSizes) (R : Recolor) (src : BaseSrc) (e : BaseEvent) : Prop :=
  ∀ sn s hit, planOf Z R src e = some (sn, .insert s .replace (some hit)) →
    ∀ q, (sn.trees s.type).find (cmpName sn s.name) = some q →
      (s.type = .funcStatic ∨ s.datalen = (sn.sn q).datalen) →
      q = hit ∧ s.key = (sn.sn hit).key

/-- Each replacement exchanges the data of the searched sinode and of no other. -/
def ReplacesFound (Z : NodeSizes) (R : Recolor) (src : BaseSrc) (e : BaseEvent) : Prop :=
  ∀ sn s hit, planOf Z R src e = some (sn, .insert s .replace (some hit)) →
    ∀ src', getbaseNext Z R src e = some src' → ∀ p < sn.next,
      src'.sinodes.sn p =
        if p = hit then { sn.sn hit with toSinodeData := s.toSinodeData } else sn.sn p

/-- **A step keeps the invariant when its replacement keeps the key.** -/
theorem storeInv_step (hi : StoreInv src.sinodes) (hg : ReplacesOwnKey Z R src e)
    (h : getbaseNext Z R src e = some src') : StoreInv src'.sinodes := by
  obtain ⟨sn, plan, hplan, hrun⟩ | ⟨-, ⟨file, hins⟩ | ⟨builtin, hsame⟩⟩ := getbaseNext_cases h
  · have hisn := storeInv_planOf hi hplan
    obtain ⟨hsame, -⟩ | ⟨s, b, hit, rfl, hins⟩ := hrun
    · rw [hsame]
      exact hisn
    obtain ⟨hmade, hout⟩ := planOf_insert hi.toStoreBase hplan
    obtain ⟨-, -, hlink⟩ | ⟨p, q, rfl, rfl, hsearch, hq, hlen, hst⟩ :=
      insert_cases hisn.toStoreBase hout hins
    · exact hisn.link hmade.flag hlink
    · obtain ⟨rfl, hkey⟩ := hg sn s p hplan q hq hlen
      obtain ⟨hmem, hname⟩ := sinodeSearch_mem hsearch
      rw [hst]
      exact hisn.replace hmade.flag hmem hname hkey.symm
  · exact hi.link (Or.inl rfl) (insertFile_link hins)
  · rw [hsame]
    exact hi.frame (hi.toStoreBase.frame rfl (Nat.le_refl _) (fun _ _ _ => ⟨rfl, rfl⟩) hi.flag)
      rfl rfl fun _ _ _ => rfl

/-- A replacement that is decided on and not stopped happens at the first sinode of the name. -/
theorem replacement_happens (hi : StoreInv src.sinodes) {sn : SinodeStore} {s : Sinode} {p q : Nat}
    (hplan : planOf Z R src e = some (sn, .insert s .replace (some p)))
    (hq : (sn.trees s.type).find (cmpName sn s.name) = some q)
    (hlen : s.type = .funcStatic ∨ s.datalen = (sn.sn q).datalen) :
    getbaseNext Z R src e =
      some { src with sinodes := sinodeInsertDoReplace (sn.alloc s) q sn.next } := by
  obtain ⟨-, hout⟩ := planOf_insert hi.toStoreBase hplan
  obtain ⟨buf, hnext⟩ := getbaseNext_of_plan hplan
  cases hout with
  | replaced hsearch hty =>
    rw [hnext, runPlan, sinodeInsert_replace (storeInv_planOf hi hplan).toStoreBase hty hq,
      if_pos hlen]
    rfl

/-- A replacement that keeps the key is the one of the searched sinode. -/
theorem replacesFound_of_ownKey (hi : StoreInv src.sinodes) (hg : ReplacesOwnKey Z R src e) :
    ReplacesFound Z R src e := by
  intro sn s p hplan src' hnext a ha
  have hbsn := (storeInv_planOf hi hplan).toStoreBase
  obtain ⟨-, hout⟩ := planOf_insert hi.toStoreBase hplan
  obtain ⟨buf, hrun⟩ := getbaseNext_of_plan hplan
  rw [hnext] at hrun
  obtain ⟨⟨src'', r⟩, hplanrun, hfst⟩ := Option.map_eq_some_iff.mp hrun.symm
  obtain rfl : src'' = src' := hfst
  obtain ⟨-, hno⟩ | ⟨_, _, _, hinsert, hins⟩ := runPlan_cases hplanrun
  · exact absurd rfl (hno _ _ _)
  cases hinsert
  obtain ⟨hb, -⟩ | ⟨_, q, -, hp, -, hq, hlen, hst⟩ := insert_cases hbsn hout hins
  · cases hb
  cases hp
  obtain ⟨rfl, -⟩ := hg sn s p hplan q hq hlen
  rw [hst]
  exact replace_sn s ha

/-- **A replacement that moves a key loses it.** -/
theorem trees_break (hi : StoreInv src.sinodes) (hng : ¬ ReplacesOwnKey Z R src e)
    (hr : ReplacesFound Z R src e) :
    ∃ src', getbaseNext Z R src e = some src' ∧ ¬ TreesRight src'.sinodes := by
  simp only [ReplacesOwnKey, not_forall] at hng
  obtain ⟨sn, s, p, hplan, q, hq, hlen, hne⟩ := hng
  have hisn := storeInv_planOf hi hplan
  have hnext := replacement_happens hi hplan hq hlen
  obtain ⟨hqmem, hqeq⟩ := SearchTree.find_some hq
  have hqname : (sn.sn q).name = s.name := Std.LawfulEqCmp.eq_of_compare hqeq
  have hqty := hisn.typed _ q hqmem
  refine ⟨_, hnext, fun hright => ?_⟩
  have hsn := replace_sn s (q := q) hqty.2
  rw [if_pos rfl] at hsn
  have hkeyq := key_withData (t := sn.sn q) (s := s) hqty.1 hqname
  -- only the searched sinode may have changed, and its key is then the one searched for
  have hqp : q = p := by
    by_contra hqp
    have hfound := hr sn s p hplan _ hnext q hqty.2
    rw [if_neg hqp] at hfound
    have hkey : (sn.sn q).key = s.key := by
      rw [← hkeyq, ← hsn]
      exact congrArg Sinode.key hfound.symm
    have hown := sinodeSearch_own (find_keyWalk hisn hqmem hkey)
    obtain ⟨-, hout⟩ := planOf_insert hi.toStoreBase hplan
    cases hout with
    | replaced hsearch hty =>
      rw [hsearch] at hown
      exact hqp (Option.some.inj hown).symm
  have hmoved : s.key ≠ (sn.sn q).key := fun hk => hne ⟨hqp, hqp ▸ hk⟩
  obtain ⟨s₀, hs₀, hs₀ty, hs₀key⟩ := hisn.origin _ q hqmem
  obtain ⟨a, ha, hakey⟩ := hright.2 s₀ (List.mem_cons_of_mem _ hs₀)
  have hamem : a ∈ (sn.trees s₀.type).toList := (sinodeSearch_mem ha).1
  rw [hs₀ty] at hamem
  have haty := hisn.typed _ a hamem
  have hasn := replace_sn s (q := q) haty.2
  by_cases haq : a = q
  · -- the key that was here has moved away
    rw [haq, hsn, hkeyq, hs₀key] at hakey
    exact hmoved hakey
  · -- and no other sinode has it
    rw [hasn, if_neg haq, hs₀key] at hakey
    exact haq ((hisn.sorted _).unique hamem hqmem (by
      rw [hakey]
      exact Std.ReflCmp.compare_self))

theorem storeInv_empty (builtin : Option Nat) : StoreInv (BaseSrc.empty builtin).sinodes where
  toStoreBase := storeBase_empty builtin
  sorted _ := List.Pairwise.nil
  kept _ hs := by cases hs
  origin _ _ hp := by cases hp

/-- **The trees serve every search exactly when no replacement meets another sinode or moves a
    key.** -/
theorem trees_exact (Z : NodeSizes) (R : Recolor) (builtin : Option Nat) (es : List BaseEvent) :
    (Visits (getbaseNext Z R) (fun src => TreesRight src.sinodes) (.empty builtin) es ∧
      Along (getbaseNext Z R) (ReplacesFound Z R) (.empty builtin) es) ↔
      Along (getbaseNext Z R) (ReplacesOwnKey Z R) (.empty builtin) es := by
  have hstep : ∀ src e src', StoreInv src.sinodes → ReplacesOwnKey Z R src e →
      getbaseNext Z R src e = some src' → StoreInv src'.sinodes :=
    fun _ _ _ hi hg h => storeInv_step hi hg h
  exact visits_along_iff hstep (fun _ hi => hi.treesRight)
    (fun _ _ hi hg => replacesFound_of_ownKey hi hg)
    (fun _ _ hi hng hr => trees_break hi hng hr) (storeInv_empty builtin)

/-! ## A strong symbol over a weak built-in one -/

def smallSizes : NodeSizes := ⟨1, 2, 3⟩

/-- A function `f` with a body, at line `line` of the file `a`. -/
def smallFunction (weak : Bool) (line : Int) : TreeObj :=
  ⟨0x1000, 0, .function ⟨some [102], false, true, true, weak, some true, ⟨some [97], line, 1⟩⟩⟩

/-- The built-in resfile 1 has a weak `f`, resfile 2 a strong one. -/
theorem strong_symbol_takes_builtin_key :
    ¬ (Visits (getbaseNext smallSizes .id) (fun src => TreesRight src.sinodes) (.empty (some 1))
        [.gimple 0 1 (smallFunction true 1), .gimple 1 2 (smallFunction false 2)] ∧
      Along (getbaseNext smallSizes .id) (ReplacesFound smallSizes .id) (.empty (some 1))
        [.gimple 0 1 (smallFunction true 1), .gimple 1 2 (smallFunction false 2)]) := by
  rintro ⟨hv, -⟩
  have hright := visits_iff_exec.mp hv _ [] _ (List.append_nil _).symm rfl
  let weak := gimpleSinode smallSizes ⟨0, 1, .gimple⟩ (smallFunction true 1) .funcGlobal [102]
    (some ⟨some [97], 1, 1⟩) (some 0)
  obtain ⟨p, hp, -⟩ := hright.2 weak (List.mem_cons_of_mem _ List.mem_cons_self)
  have hnone : none = some p := hp
  cases hnone

end Srcinv.Analysis
