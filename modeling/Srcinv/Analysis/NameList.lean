import Srcinv.Lib.Places
import Srcinv.Lib.Run
import Srcinv.Analysis.Sinode

/-!
# The list of names (`si_helper.h`)

Every name is kept once, in a search tree by length and bytes, and its address stands for it.  The
lookup computes the length of the names in the tree by `strlen` and gets that of the name from the
caller.

* `strncmp_eq` — comparing so many bytes of two strings of one length compares the strings.
* `nameProbe_eq` — a step of the walk compares by length and bytes.
* `NamesInv.add` — what adding a name keeps.
* `nameList_right` — **equal names have one address, different ones have two, the lookup returns
  the address of every name that was added and no other, the tree is ordered, and the contents stay
  as they are.**
-/

namespace Srcinv.Analysis

open Srcinv.Lib

/-- The bytes of a string in C, without the NUL. -/
structure CName where
  bytes : List UInt8
  noNul : 0 ∉ bytes

/-- The bytes with the NUL. -/
def CName.buf (s : CName) : List UInt8 := s.bytes ++ [0]

/-- `strlen` plus one. -/
def CName.namelen (s : CName) : Nat := s.bytes.length + 1

def strlen (buf : List UInt8) : Nat := (buf.takeWhile (· ≠ 0)).length

/-- `strncmp`: how the first string compares with the second one. -/
def strncmp : Nat → List UInt8 → List UInt8 → Ordering
  | n + 1, a :: as, b :: bs =>
    if a ≠ b then compare a b
    else if a = 0 then .eq
    else strncmp n as bs
  | _, _, _ => .eq

/-- `src_buf_get`: the addresses that it returns, one after the other.  They are fresh. -/
structure SrcBuf where
  get : Nat → Nat
  fresh : ∀ i j, get i = get j → i = j

/-- The memory of the `name_list`s, how many were allocated, and `names_root`. -/
structure NameStore where
  name : Nat → Option (List UInt8)
  made : Nat
  root : SearchTree Nat

/-- No name. -/
def NameStore.empty : NameStore := ⟨fun _ => none, 0, .nil⟩

variable (A : SrcBuf) (R : Recolor) (st : NameStore)

/-- A step of the walk, with the `data` at `p`. -/
def nameProbe (tname : List UInt8) (namelen p : Nat) : Ordering :=
  match st.name p with
  | none => .eq
  | some name =>
    if namelen < strlen name + 1 then .gt
    else if namelen > strlen name + 1 then .lt
    else strncmp namelen name tname

/-- `__name_list_find`. -/
def nameListFindNode (tname : List UInt8) (namelen : Nat) : Option Nat :=
  st.root.find (nameProbe st tname namelen)

/-- `name_list_new`. -/
def nameListNew (tname : List UInt8) (namelen : Nat) : NameStore :=
  { st with
    name := Function.update st.name (A.get st.made) (some (tname.take namelen))
    made := st.made + 1 }

/-- `__name_list_add`: the node is linked where the walk ended. -/
def nameListAdd (tname : List UInt8) (namelen : Nat) : Option (NameStore × Nat) :=
  match nameListFindNode st tname namelen with
  | some p => some (st, p)
  | none =>
    (st.root.link (nameProbe st tname namelen) (A.get st.made)).map fun t =>
      ({ nameListNew A st tname namelen with root := R.run (A.get st.made) t }, A.get st.made)

/-- `name_list_find`. -/
def nameListFind (s : CName) : Option Nat := nameListFindNode st s.buf s.namelen

/-- A sequence of `name_list_add`, with the addresses that it returns. -/
def nameListAdds (names : List CName) : Option (NameStore × List Nat) :=
  names.foldlM (fun s name => (nameListAdd A R s.1 name.buf name.namelen).map fun t =>
    (t.1, s.2 ++ [t.2])) (st, [])

/-! ## Comparing -/

/-- The key of a name. -/
structure NameKey where
  len : Nat
  bytes : List UInt8
  deriving DecidableEq, Repr

instance : Ord NameKey := ⟨fun a b => (compare a.len b.len).then (compare a.bytes b.bytes)⟩

theorem compare_nameKey (a b : NameKey) :
    compare a b = (compare a.len b.len).then (compare a.bytes b.bytes) := rfl

instance : Std.TransOrd NameKey :=
  inferInstanceAs (Std.TransCmp (compareLex (compareOn NameKey.len) (compareOn NameKey.bytes)))

instance : Std.LawfulEqOrd NameKey where
  eq_of_compare {a b} h := by
    rw [compare_nameKey, Ordering.then_eq_eq] at h
    obtain ⟨al, ab⟩ := a
    obtain ⟨bl, bb⟩ := b
    obtain rfl := Std.LawfulEqCmp.eq_of_compare h.1
    obtain rfl := Std.LawfulEqCmp.eq_of_compare h.2
    rfl

def nameKey (bytes : List UInt8) : NameKey := ⟨bytes.length, bytes⟩

/-- The bytes before the NUL. -/
def cstr (buf : List UInt8) : List UInt8 := buf.takeWhile (· ≠ 0)

/-- The key of the name at an address. -/
def NameStore.key (p : Nat) : NameKey := nameKey (cstr ((st.name p).getD []))

variable {st} {st' : NameStore} {A R} {p : Nat}

theorem cstr_buf (s : CName) : cstr s.buf = s.bytes := by
  unfold cstr CName.buf
  rw [List.takeWhile_append_of_pos fun b hb => by
    simpa using fun h : b = 0 => s.noNul (h ▸ hb)]
  simp

theorem strlen_buf (s : CName) : strlen s.buf = s.bytes.length := congrArg List.length (cstr_buf s)

/-- **`strncmp` of two strings of one length compares their bytes.** -/
theorem strncmp_eq {as bs : List UInt8} (hlen : as.length = bs.length) (ha : 0 ∉ as) :
    strncmp (as.length + 1) (as ++ [0]) (bs ++ [0]) = compare as bs := by
  induction as generalizing bs with
  | nil =>
    obtain rfl := List.length_eq_zero_iff.mp hlen.symm
    rfl
  | cons a as ih =>
    cases bs with
    | nil => cases hlen
    | cons b bs =>
      rw [List.compare_cons_cons]
      simp only [List.cons_append, List.length_cons, strncmp]
      by_cases hab : a = b
      · subst hab
        have hne : a ≠ 0 := fun h => ha (h ▸ List.mem_cons_self)
        have hself : compare a a = .eq := Std.ReflCmp.compare_self
        rw [if_neg (not_not.mpr rfl), if_neg hne, hself]
        exact ih (Nat.succ.inj hlen) fun h => ha (List.mem_cons_of_mem a h)
      · rw [if_pos hab]
        cases hcmp : compare a b with
        | eq => exact absurd (Std.LawfulEqCmp.eq_of_compare hcmp) hab
        | _ => rfl

/-- **A step of the walk compares by length and bytes.** -/
theorem nameProbe_eq {s : CName} (hp : st.name p = some s.buf) (t : CName) :
    nameProbe st t.buf t.namelen p = compare (st.key p) (nameKey t.bytes) := by
  have hkey : st.key p = nameKey s.bytes := by
    unfold NameStore.key
    rw [hp, Option.getD_some, cstr_buf]
  unfold nameProbe
  rw [hp, hkey]
  simp only [strlen_buf]
  rw [compare_nameKey]
  unfold nameKey CName.namelen
  dsimp only
  obtain hlt | heq | hgt := Nat.lt_trichotomy s.bytes.length t.bytes.length
  · rw [if_neg (by omega), if_pos (by omega), compare_lt_iff_lt.mpr hlt]
    rfl
  · have hself : compare s.bytes.length t.bytes.length = .eq := by
      rw [heq]
      exact Std.ReflCmp.compare_self
    rw [if_neg (by omega), if_neg (by omega), hself, ← heq]
    exact strncmp_eq heq s.noNul
  · rw [if_pos (by omega), compare_gt_iff_gt.mpr hgt]
    rfl

/-! ## The names that were added -/

/-- The order of the tree. -/
def NamesOrdered (st : NameStore) : Prop :=
  st.root.toList.Pairwise fun p q => (cstr ((st.name p).getD [])).length <
      (cstr ((st.name q).getD [])).length ∨
    (cstr ((st.name p).getD [])).length = (cstr ((st.name q).getD [])).length ∧
      compare (cstr ((st.name p).getD [])) (cstr ((st.name q).getD [])) = .lt

/-- The invariant of a sequence of additions, with the addresses that they returned. -/
structure NamesInv (A : SrcBuf) (names : List CName) (s : NameStore × List Nat) : Prop where
  length : s.2.length = names.length
  free : ∀ k, s.1.made ≤ k → s.1.name (A.get k) = none
  members : ∀ p ∈ s.1.root.toList, ∃ t ∈ names, s.1.name p = some t.buf
  sorted : s.1.root.Sorted s.1.key
  ptrs : ∀ (i : Nat) (t : CName) (p : Nat), names[i]? = some t → s.2[i]? = some p →
    p ∈ s.1.root.toList ∧ s.1.name p = some t.buf

theorem CName.buf_inj {s t : CName} (h : s.bytes = t.bytes) : s = t := by
  cases s
  cases t
  cases h
  rfl

theorem key_eq {s : CName} (hp : st.name p = some s.buf) : st.key p = nameKey s.bytes := by
  unfold NameStore.key
  rw [hp, Option.getD_some, cstr_buf]

theorem buf_eq_iff {s t : CName} : s.buf = t.buf ↔ s = t := by
  constructor
  · intro h
    refine CName.buf_inj ?_
    rw [← cstr_buf, h, cstr_buf]
  · rintro rfl
    rfl

variable {names : List CName} {s : NameStore × List Nat}

/-- **The lookup finds the name.** -/
theorem NamesInv.find (hi : NamesInv A names s) (t : CName) :
    nameListFindNode s.1 t.buf t.namelen = some p ↔
      p ∈ s.1.root.toList ∧ s.1.name p = some t.buf := by
  have hprobe : ∀ q ∈ s.1.root.toList,
      nameProbe s.1 t.buf t.namelen q = compare (s.1.key q) (nameKey t.bytes) := by
    intro q hq
    obtain ⟨u, -, hu⟩ := hi.members q hq
    exact nameProbe_eq hu t
  unfold nameListFindNode
  rw [SearchTree.find_congr hprobe, SearchTree.find_key hi.sorted]
  refine and_congr_right fun hp => ?_
  obtain ⟨u, -, hu⟩ := hi.members p hp
  rw [key_eq hu, hu, Option.some.injEq, buf_eq_iff]
  constructor
  · intro h
    exact CName.buf_inj (congrArg NameKey.bytes (Std.LawfulEqCmp.eq_of_compare h))
  · rintro rfl
    exact Std.ReflCmp.compare_self

/-- A name that is not found was not added. -/
theorem NamesInv.find_none (hi : NamesInv A names s) {t : CName} :
    nameListFindNode s.1 t.buf t.namelen = none ↔ t ∉ names := by
  rw [Option.eq_none_iff_forall_ne_some]
  constructor
  · intro hno hmem
    obtain ⟨i, hlt, hat⟩ := List.getElem_of_mem hmem
    have hlt' : i < s.2.length := hi.length ▸ hlt
    exact hno _ ((hi.find t).mpr (hi.ptrs i t _ (by rw [List.getElem?_eq_getElem hlt, hat])
      (List.getElem?_eq_getElem hlt')))
  · intro hno p hp
    obtain ⟨hmem, hbuf⟩ := (hi.find t).mp hp
    obtain ⟨u, hu, hubuf⟩ := hi.members p hmem
    exact hno (buf_eq_iff.mp (Option.some.inj (hubuf.symm.trans hbuf)) ▸ hu)

/-- **Adding a name** keeps the invariant. -/
theorem NamesInv.add (hi : NamesInv A names s) (R : Recolor) (t : CName) :
    ∃ s' p, nameListAdd A R s.1 t.buf t.namelen = some (s', p) ∧
      NamesInv A (names ++ [t]) (s', s.2 ++ [p]) := by
  unfold nameListAdd
  cases hfind : nameListFindNode s.1 t.buf t.namelen with
  | some p =>
    obtain ⟨hp, hbuf⟩ := (hi.find t).mp hfind
    refine ⟨s.1, p, rfl, by simp [hi.length], hi.free, fun q hq => ?_, hi.sorted,
      fun i u q hu hq => ?_⟩
    · obtain ⟨u, hu, hubuf⟩ := hi.members q hq
      exact ⟨u, List.mem_append_left _ hu, hubuf⟩
    · obtain ⟨hu, hq⟩ | ⟨rfl, rfl⟩ := getElem?_snoc_both hi.length hu hq
      · exact hi.ptrs i u q hu hq
      · exact ⟨hp, hbuf⟩
  | none =>
    have hnew : s.1.name (A.get s.1.made) = none := hi.free _ (Nat.le_refl _)
    obtain ⟨tree, hlink⟩ := Option.isSome_iff_exists.mp (SearchTree.link_isSome_iff
      (x := A.get s.1.made) |>.mpr hfind)
    have hne : ∀ q ∈ s.1.root.toList, q ≠ A.get s.1.made := by
      rintro q hq rfl
      obtain ⟨u, -, hu⟩ := hi.members _ hq
      rw [hnew] at hu
      cases hu
    refine ⟨_, _, by rw [hlink]; rfl, ?_⟩
    have htake : t.buf.take t.namelen = t.buf := List.take_of_length_le (by
      unfold CName.buf CName.namelen
      simp)
    have hat : Function.update s.1.name (A.get s.1.made) (some (t.buf.take t.namelen))
        (A.get s.1.made) = some t.buf := by
      rw [Function.update_self, htake]
    have hold : ∀ q, q ≠ A.get s.1.made → Function.update s.1.name (A.get s.1.made)
        (some (t.buf.take t.namelen)) q = s.1.name q := fun q hq => Function.update_of_ne hq ..
    have hmem : ∀ q, q ∈ (R.run (A.get s.1.made) tree).toList ↔
        q = A.get s.1.made ∨ q ∈ s.1.root.toList := by
      intro q
      rw [R.toList_run]
      exact SearchTree.mem_link hlink
    refine ⟨by simp [hi.length], fun k hk => ?_, fun q hq => ?_, ?_, fun i u q hu hq => ?_⟩
    · have hk' : s.1.made < k := hk
      exact (hold _ fun heq => Nat.ne_of_gt hk' (A.fresh _ _ heq)).trans (hi.free k hk'.le)
    · obtain rfl | hq := (hmem q).mp hq
      · exact ⟨t, List.mem_append_right _ (List.mem_singleton.mpr rfl), hat⟩
      · obtain ⟨u, hu, hubuf⟩ := hi.members q hq
        exact ⟨u, List.mem_append_left _ hu, (hold q (hne q hq)).trans hubuf⟩
    · have hkey : ∀ q ∈ s.1.root.toList, NameStore.key { nameListNew A s.1 t.buf t.namelen with
          root := R.run (A.get s.1.made) tree } q = s.1.key q := by
        intro q hq
        exact congrArg (fun o : Option (List UInt8) => nameKey (cstr (o.getD [])))
          (hold q (hne q hq))
      have hkeyNew : NameStore.key { nameListNew A s.1 t.buf t.namelen with
          root := R.run (A.get s.1.made) tree } (A.get s.1.made) = nameKey t.bytes := key_eq hat
      have hprobe : ∀ q ∈ s.1.root.toList,
          nameProbe s.1 t.buf t.namelen q = compare (s.1.key q) (nameKey t.bytes) := by
        intro q hq
        obtain ⟨u, -, hu⟩ := hi.members q hq
        exact nameProbe_eq hu t
      unfold SearchTree.Sorted
      rw [R.toList_run]
      refine SearchTree.link_order (fun q hq hgt => ?_) (fun q hq hlt => ?_)
        (fun _ _ _ hab hbc => Std.TransCmp.lt_trans hab hbc) ?_ hlink
      · rw [hkeyNew, hkey q hq]
        rw [hprobe q hq] at hgt
        exact Std.OrientedCmp.lt_of_gt hgt
      · rw [hkeyNew, hkey q hq, ← hprobe q hq]
        exact hlt
      · exact SearchTree.sorted_congr rfl hkey hi.sorted
    · obtain ⟨hu, hq⟩ | ⟨rfl, rfl⟩ := getElem?_snoc_both hi.length hu hq
      · obtain ⟨hqmem, hqbuf⟩ := hi.ptrs i u q hu hq
        exact ⟨(hmem q).mpr (Or.inr hqmem), (hold q (hne q hqmem)).trans hqbuf⟩
      · exact ⟨(hmem _).mpr (Or.inl rfl), hat⟩

theorem namesInv_empty (A : SrcBuf) : NamesInv A [] (.empty, []) where
  length := rfl
  free _ _ := rfl
  members p hp := by cases hp
  sorted := List.Pairwise.nil
  ptrs i t p h := by cases h

/-- **Adding names, one after the other.**  The addresses that were returned before stay. -/
theorem NamesInv.adds (hi : NamesInv A names s) (R : Recolor) (more : List CName) :
    ∃ st' ptrs, more.foldlM (fun s name => (nameListAdd A R s.1 name.buf name.namelen).map fun t =>
        (t.1, s.2 ++ [t.2])) s = some (st', s.2 ++ ptrs) ∧
      NamesInv A (names ++ more) (st', s.2 ++ ptrs) := by
  induction more generalizing names s with
  | nil => exact ⟨s.1, [], by simp, by simpa using hi⟩
  | cons t more ih =>
    obtain ⟨s₁, p, hadd, hi₁⟩ := hi.add R t
    obtain ⟨st', ptrs, hrun, hi'⟩ := ih hi₁
    refine ⟨st', p :: ptrs, ?_, ?_⟩
    · rw [List.foldlM_cons, hadd]
      simpa using hrun
    · simpa using hi'

theorem NamesInv.ordered (hi : NamesInv A names s) : NamesOrdered s.1 := by
  refine List.Pairwise.imp (fun {p q} h => ?_) hi.sorted
  rw [NameStore.key, NameStore.key, compare_nameKey] at h
  unfold nameKey at h
  dsimp only at h
  obtain hlen | ⟨hlen, hbytes⟩ := Ordering.then_eq_lt.mp h
  · exact Or.inl (compare_lt_iff_lt.mp hlen)
  · exact Or.inr ⟨compare_eq_iff_eq.mp hlen, hbytes⟩

/-- **The names that were added.**  For any sequence of names: two additions return one address
    exactly where the names are equal; the lookup returns that address for every name that was
    added, and nothing for the others; the tree is ordered by length and bytes; and what stands at
    an address that was returned is the name, also after all later additions. -/
theorem nameList_right (A : SrcBuf) (R : Recolor) (names : List CName) :
    ∃ st ptrs, nameListAdds A R .empty names = some (st, ptrs) ∧ ptrs.length = names.length ∧
      (∀ (i j : Nat) (s t : CName) (p q : Nat), names[i]? = some s → names[j]? = some t →
        ptrs[i]? = some p → ptrs[j]? = some q → (p = q ↔ s = t)) ∧
      (∀ (i : Nat) (t : CName) (p : Nat), names[i]? = some t → ptrs[i]? = some p →
        nameListFind st t = some p) ∧
      (∀ t, t ∉ names → nameListFind st t = none) ∧ NamesOrdered st ∧
      ∀ more, ∃ st' ptrs', nameListAdds A R .empty (names ++ more) = some (st', ptrs ++ ptrs') ∧
        ∀ (i : Nat) (t : CName) (p : Nat), names[i]? = some t → ptrs[i]? = some p →
          st.name p = some t.buf ∧ st'.name p = some t.buf := by
  obtain ⟨st, ptrs, hrun, hi⟩ := (namesInv_empty A).adds R names
  simp only [List.nil_append] at hrun hi
  refine ⟨st, ptrs, hrun, hi.length, fun i j s t p q hs ht hp hq => ?_, fun i t p ht hp => ?_,
    fun t ht => hi.find_none.mpr ht, hi.ordered, fun more => ?_⟩
  · obtain ⟨hpmem, hpbuf⟩ := hi.ptrs i s p hs hp
    obtain ⟨hqmem, hqbuf⟩ := hi.ptrs j t q ht hq
    constructor
    · rintro rfl
      exact buf_eq_iff.mp (Option.some.inj (hpbuf.symm.trans hqbuf))
    · rintro rfl
      exact Option.some.inj
        (((hi.find s).mpr ⟨hpmem, hpbuf⟩).symm.trans ((hi.find s).mpr ⟨hqmem, hqbuf⟩))
  · exact (hi.find t).mpr (hi.ptrs i t p ht hp)
  · obtain ⟨st', ptrs', hmore, hi'⟩ := hi.adds R more
    refine ⟨st', ptrs', ?_, fun i t p ht hp => ⟨(hi.ptrs i t p ht hp).2, ?_⟩⟩
    · unfold nameListAdds
      rw [List.foldlM_append, hrun]
      exact hmore
    · refine (hi'.ptrs i t p ?_ ?_).2
      · rw [List.getElem?_append_left (List.getElem?_eq_some_iff.mp ht).1]
        exact ht
      · dsimp only
        rw [List.getElem?_append_left (List.getElem?_eq_some_iff.mp hp).1]
        exact hp

/-- Blocks of 16 bytes, one after the other. -/
def blocksOf16 : SrcBuf where
  get k := 16 * k
  fresh i j h := by omega

def nameRun : CName := ⟨[114, 117, 110], by decide⟩

def nameMain : CName := ⟨[109, 97, 105, 110], by decide⟩

def nameInit : CName := ⟨[105, 110, 105, 116], by decide⟩

/-- `main`, `run`, `init`, and `main` again: the second `main` gets the address of the first one,
    and all three are found, below and beside the root. -/
theorem nameList_right_main :
    ∃ st, nameListAdds blocksOf16 .id .empty [nameMain, nameRun, nameInit, nameMain] =
        some (st, [0, 16, 32, 0]) ∧
      nameListFind st nameMain = some 0 ∧ nameListFind st nameRun = some 16 ∧
      nameListFind st nameInit = some 32 ∧ nameListFind st ⟨[], by decide⟩ = none := by
  obtain ⟨st, ptrs, hrun, -, -, hfind, hnone, -⟩ :=
    nameList_right blocksOf16 .id [nameMain, nameRun, nameInit, nameMain]
  have hptrs : (nameListAdds blocksOf16 .id .empty [nameMain, nameRun, nameInit, nameMain]).map
      Prod.snd = some [0, 16, 32, 0] := by decide
  obtain rfl : ptrs = [0, 16, 32, 0] := by
    rw [hrun] at hptrs
    exact Option.some.inj hptrs
  refine ⟨st, hrun, hfind 0 _ _ rfl rfl, hfind 1 _ _ rfl rfl, hfind 2 _ _ rfl rfl,
    hnone _ fun h => ?_⟩
  simp [nameMain, nameRun, nameInit] at h

end Srcinv.Analysis
