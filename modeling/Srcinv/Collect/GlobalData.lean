import Mathlib.Data.List.Forall2
import Srcinv.Record
import Srcinv.Lib.Blocks

/-!
# The GCC globals in the object table (`collect/gcc/c.cc`)

After the declarations the collector goes through `global_trees`, `integer_types` and
`sizetype_tab`.  An entry that is NULL or already in the table gets a table entry without bytes,
any other is walked: its own entry comes first, then those of whatever the walk finds.  Either
way the first of the new entries is tagged with the number of the array entry.

* `collectGlobalData_blocks` — the table grows by one block for each array entry: a tagged entry
  for its object, then untagged ones.
* `FirstWritten` — the first entry of an object is the one that has its bytes.
-/

namespace Srcinv.Collect

open Srcinv.Lib

/-- The arrays of the compiler.  There are some `global_trees`, and 16 bits number all entries. -/
structure GccGlobals where
  globalTrees : List Nat
  integerTypes : List Nat
  sizetypeTab : List Nat
  some_tree : 0 < globalTrees.length
  few : globalTrees.length + integerTypes.length + sizetypeTab.length < 2 ^ 16 - 1

/-- All array entries, in the order they are collected. -/
def GccGlobals.all (g : GccGlobals) : List Nat := g.globalTrees ++ g.integerTypes ++ g.sizetypeTab

/-- `do_tree` of an object that is not in the table: what it appends.  The node itself is written
    first; no entry is tagged. -/
structure Walk where
  doTree : List FileObj → Nat → List FileObj
  own : ∀ objs obj, ∃ size subs, 0 < size ∧
    doTree objs obj = { FileObj.zero with fakeAddr := obj, size := size } :: subs ∧
      ∀ s ∈ subs, s.gccGlobalVaridx = 0 ∧ s.realAddr = 0

/-- `is_obj_checked`; `none` is the `BUG()` of a full table. -/
def isObjChecked (objs : List FileObj) (obj : Nat) : Option Bool :=
  if obj = 0 then some true
  else if objs.length ≥ MAX_OBJS_PER_FILE then none
  else some (objs.any fun o => o.fakeAddr == obj)

/-- `do_global_tree`. -/
def doGlobalTree (w : Walk) (objs : List FileObj) (obj idx : Nat) : Option (List FileObj) :=
  match isObjChecked objs obj with
  | none => none
  | some true =>
    if objs.length < MAX_OBJS_PER_FILE then
      some (objs ++ [{ FileObj.zero with fakeAddr := obj, gccGlobalVaridx := idx }])
    else none
  | some false =>
    let curIdx := objs.length
    let objs := objs ++ w.doTree objs obj
    if curIdx ≥ objs.length then none
    else some (objs.modify curIdx fun o => { o with gccGlobalVaridx := idx })

/-- One of the three loops of `collect_global_data`; `idx` is an `unsigned short`. -/
def collectLoop (w : Walk) : List FileObj × Nat → List Nat → Option (List FileObj × Nat)
  | (objs, idx), [] => some (objs, idx)
  | (objs, idx), obj :: rest =>
    (doGlobalTree w objs obj idx).bind fun objs => collectLoop w (objs, (idx + 1) % 2 ^ 16) rest

/-- `collect_global_data`. -/
def collectGlobalData (w : Walk) (objs : List FileObj) (g : GccGlobals) :
    Option (List FileObj) :=
  ((((collectLoop w (objs, 1) g.globalTrees).bind fun st => collectLoop w st g.integerTypes).bind
    fun st => collectLoop w st g.sizetypeTab)).map Prod.fst

/-! ## Blocks -/

/-- `gcc_global_varidx` is set. -/
def tagged (o : FileObj) : Bool := o.gccGlobalVaridx != 0

/-- The entry has bytes of its own. -/
def written (o : FileObj) : Bool := !tagged o || (o.fakeAddr != 0 && o.size != 0)

/-- An entry of an array has bytes exactly when it is the first entry of its object. -/
def FirstWritten (objs : List FileObj) : Prop :=
  ∀ i (hi : i < objs.length), tagged objs[i] = true → objs[i].fakeAddr ≠ 0 →
    (written objs[i] = true ↔ ∀ j (hj : j < i), objs[j].fakeAddr ≠ objs[i].fakeAddr)

/-- The entries that one array entry adds: a block for its object. -/
structure GlobalBlock (obj : Nat) (block : List FileObj) : Prop where
  isBlock : IsBlock tagged block
  head : ∃ o, block.head? = some o ∧ o.fakeAddr = obj
  fresh : ∀ o ∈ block, o.realAddr = 0

/-- Appending a block keeps the order when its head is right. -/
theorem FirstWritten.append {objs subs : List FileObj} {o : FileObj} (h : FirstWritten objs)
    (ho : o.fakeAddr ≠ 0 → (written o = true ↔ ∀ o' ∈ objs, o'.fakeAddr ≠ o.fakeAddr))
    (hsubs : ∀ s ∈ subs, tagged s = false) : FirstWritten (objs ++ o :: subs) := by
  intro i hi htag hfake
  by_cases hlt : i < objs.length
  · simp only [List.getElem_append_left hlt] at htag hfake ⊢
    rw [h i hlt htag hfake]
    constructor
    · intro hall j hj
      rw [List.getElem_append_left (Nat.lt_trans hj hlt)]
      exact hall j hj
    · intro hall j hj
      have := hall j hj
      rwa [List.getElem_append_left (Nat.lt_trans hj hlt)] at this
  · obtain ⟨k, rfl⟩ := Nat.exists_eq_add_of_le (Nat.le_of_not_lt hlt)
    simp only [List.getElem_append_right (Nat.le_add_right _ _), Nat.add_sub_cancel_left]
      at htag hfake ⊢
    cases k with
    | zero =>
      simp only [List.getElem_cons_zero] at htag hfake ⊢
      rw [ho hfake]
      constructor
      · intro hall j hj
        rw [List.getElem_append_left (by omega)]
        exact hall _ (List.getElem_mem _)
      · intro hall o' ho'
        obtain ⟨j, hj, rfl⟩ := List.getElem_of_mem ho'
        have := hall j (by omega)
        rwa [List.getElem_append_left hj] at this
    | succ k =>
      rw [List.getElem_cons_succ] at htag
      rw [hsubs _ (List.getElem_mem _)] at htag
      cases htag

/-- `is_obj_checked` of a pointer tells whether the table has an entry for it. -/
theorem isObjChecked_eq {objs : List FileObj} {obj : Nat} {b : Bool} (hobj : obj ≠ 0)
    (h : isObjChecked objs obj = some b) : b = true ↔ ∃ o ∈ objs, o.fakeAddr = obj := by
  unfold isObjChecked at h
  rw [if_neg hobj] at h
  split at h
  · cases h
  · rw [← Option.some.inj h]
    simp

theorem isObjChecked_false {objs : List FileObj} {obj : Nat}
    (h : isObjChecked objs obj = some false) : obj ≠ 0 := by
  rintro rfl
  simp [isObjChecked] at h

theorem modify_append_length {α : Type*} (f : α → α) (a : α) (l₂ : List α) :
    ∀ l₁ : List α, (l₁ ++ a :: l₂).modify l₁.length f = l₁ ++ f a :: l₂
  | [] => rfl
  | _ :: l₁ => by simp [modify_append_length f a l₂ l₁]

/-- **One array entry adds one block**, and the first entries stay the written ones. -/
theorem doGlobalTree_block {w : Walk} {objs objs' : List FileObj} {obj idx : Nat}
    (hidx : idx ≠ 0) (hfirst : FirstWritten objs) (h : doGlobalTree w objs obj idx = some objs') :
    ∃ block, objs' = objs ++ block ∧ GlobalBlock obj block ∧ FirstWritten objs' := by
  unfold doGlobalTree at h
  split at h
  · cases h
  · rename_i hchecked
    split at h
    · cases h
      refine ⟨_, rfl, ⟨⟨_, [], rfl, by simp [tagged, hidx], by simp⟩, ⟨_, rfl, rfl⟩, ?_⟩, ?_⟩
      · intro o ho
        rw [List.mem_singleton.mp ho]
        rfl
      · -- the entry has no bytes, and it is not the first one of its object
        refine hfirst.append (fun hobj => ?_) (by simp)
        obtain ⟨o, ho, hfake⟩ := (isObjChecked_eq hobj hchecked).mp rfl
        constructor
        · simp [written, tagged, hidx, FileObj.zero]
        · intro hall
          exact absurd hfake (hall o ho)
    · cases h
  · rename_i hchecked
    obtain ⟨size, subs, hsize, hwalk, hsubs⟩ := w.own objs obj
    simp only [hwalk] at h
    split at h
    · cases h
    · have hobj := isObjChecked_false hchecked
      rw [modify_append_length, Option.some.injEq] at h
      refine ⟨_, h.symm, ⟨⟨_, subs, rfl, by simp [tagged, hidx], fun s hs => ?_⟩,
        ⟨_, rfl, rfl⟩, ?_⟩, ?_⟩
      · simp [tagged, (hsubs s hs).1]
      · intro o ho
        rcases List.mem_cons.mp ho with rfl | ho
        · rfl
        · exact (hsubs o ho).2
      · rw [← h]
        refine hfirst.append (fun _ => ?_) fun s hs => by simp [tagged, (hsubs s hs).1]
        have hpos : size ≠ 0 := Nat.ne_of_gt hsize
        constructor
        · intro _ o ho hfake
          have := (isObjChecked_eq hobj hchecked).mpr ⟨o, ho, hfake⟩
          cases this
        · intro _
          simp [written, hobj, hpos]

/-- A loop adds one block for each entry of its array. -/
theorem collectLoop_blocks {w : Walk} : ∀ {arr : List Nat} {objs objs' : List FileObj}
    {idx idx' : Nat}, idx ≠ 0 → idx + arr.length < 2 ^ 16 → FirstWritten objs →
      collectLoop w (objs, idx) arr = some (objs', idx') →
        idx' = idx + arr.length ∧ FirstWritten objs' ∧
          ∃ blocks, objs' = objs ++ blocks.flatten ∧ List.Forall₂ GlobalBlock arr blocks
  | [], objs, objs', idx, idx', _, _, hfirst, h => by
    cases h
    exact ⟨rfl, hfirst, [], by simp, .nil⟩
  | obj :: rest, objs, objs', idx, idx', hidx, hfew, hfirst, h => by
    rw [List.length_cons] at hfew
    rw [collectLoop] at h
    obtain ⟨objs₁, hone, hrest⟩ := Option.bind_eq_some_iff.mp h
    obtain ⟨block, hobjs₁, hblock, hfirst₁⟩ := doGlobalTree_block hidx hfirst hone
    rw [Nat.mod_eq_of_lt (by omega)] at hrest
    obtain ⟨hidx', hfirst', blocks, hobjs', hblocks⟩ :=
      collectLoop_blocks (Nat.succ_ne_zero idx) (by omega) hfirst₁ hrest
    refine ⟨by rw [hidx', List.length_cons]; omega, hfirst', block :: blocks, ?_,
      .cons hblock hblocks⟩
    rw [hobjs', hobjs₁, List.flatten_cons, List.append_assoc]

/-- **The table after `collect_global_data`**: one block for each array entry. -/
theorem collectGlobalData_blocks {w : Walk} {g : GccGlobals} {roots objs : List FileObj}
    (hfirst : FirstWritten roots) (h : collectGlobalData w roots g = some objs) :
    FirstWritten objs ∧
      ∃ blocks, objs = roots ++ blocks.flatten ∧ List.Forall₂ GlobalBlock g.all blocks := by
  have hfew := g.few
  unfold collectGlobalData at h
  obtain ⟨⟨objs₃, idx₃⟩, h₃, rfl⟩ := Option.map_eq_some_iff.mp h
  obtain ⟨⟨objs₂, idx₂⟩, h₂, h₃⟩ := Option.bind_eq_some_iff.mp h₃
  obtain ⟨⟨objs₁, idx₁⟩, h₁, h₂⟩ := Option.bind_eq_some_iff.mp h₂
  obtain ⟨rfl, hf₁, bs₁, rfl, hb₁⟩ :=
    collectLoop_blocks Nat.one_ne_zero (by omega) hfirst h₁
  obtain ⟨rfl, hf₂, bs₂, rfl, hb₂⟩ := collectLoop_blocks (by omega) (by omega) hf₁ h₂
  obtain ⟨-, hf₃, bs₃, rfl, hb₃⟩ := collectLoop_blocks (by omega) (by omega) hf₂ h₃
  refine ⟨hf₃, bs₁ ++ bs₂ ++ bs₃, by simp [List.append_assoc], ?_⟩
  exact List.rel_append (List.rel_append hb₁ hb₂) hb₃

end Srcinv.Collect
