import Mathlib.Data.List.Forall2
import Srcinv.Analysis.Preview
import Srcinv.Collect.GlobalData
import Srcinv.Lib.Blocks

/-!
# The GCC globals on the analysis side (`analysis/gcc/c.cc`)

`MODE_ADJUST` settles the addresses of the entries without bytes: NULL for a NULL array entry, the
address of the object otherwise.  `setup_gcc_globals` then rebuilds the three arrays: it looks for
the first tagged entry and takes as many consecutive entries as the arrays have.

* `adjustTable_spec` — after the adjustment every tagged entry has the address of its object.
* `globals_exact` — `get_global` returns the objects of all array entries exactly when the table
  entries that an array entry adds behind its own are, in turn, the objects of the next ones.
-/

namespace Srcinv.Analysis

open Srcinv.Lib Srcinv.Collect

/-! ## Addresses of the entries without bytes -/

/-- `get_real_addr_1`: NULL when the object is not found. -/
def getRealAddr1 (objs : List FileObj) (fakeAddr : Nat) : Nat :=
  if fakeAddr = 0 then 0
  else
    match objs.find? fun o => o.fakeAddr == fakeAddr && o.realAddr != 0 with
    | some o => o.realAddr
    | none => 0

/-- The part of `MODE_ADJUST` that clears the addresses of NULL and shared globals. -/
def clearGlobal (o : FileObj) : FileObj :=
  let o := if tagged o && o.fakeAddr == 0 then { o with realAddr := 0 } else o
  if tagged o && o.size == 0 then { o with realAddr := 0 } else o

/-- The loop of `do_gcc_global_var_adjust`, as far as it changes addresses: `done` are the entries
    it has passed. -/
def adjustGlobals : List FileObj → List FileObj → Option (List FileObj)
  | done, [] => some done
  | done, o :: todo =>
    if !tagged o then adjustGlobals (done ++ [o]) todo
    else if o.fakeAddr = 0 then adjustGlobals (done ++ [{ o with realAddr := 0 }]) todo
    else if o.size = 0 then
      let thisFake := getRealAddr1 (done ++ o :: todo) o.fakeAddr
      if thisFake = 0 then none
      else adjustGlobals (done ++ [{ o with realAddr := thisFake }]) todo
    else adjustGlobals (done ++ [o]) todo

/-- What `MODE_ADJUST` does to the addresses in a table. -/
def adjustTable (objs : List FileObj) : Option (List FileObj) :=
  adjustGlobals [] (objs.map clearGlobal)

/-! ## Rebuilding the arrays -/

/-- `TI_MAX`, `itk_none` and `stk_type_kind_last`. -/
structure GlobalCounts where
  tiMax : Nat
  itkNone : Nat
  stkTypeKindLast : Nat

/-- The lengths of the compiler's arrays. -/
def globalCounts (g : GccGlobals) : GlobalCounts :=
  ⟨g.globalTrees.length, g.integerTypes.length, g.sizetypeTab.length⟩

/-- One of the loops of `setup_gcc_globals`: `n` addresses from entry `ggvIdx` on.  `none` is a
    read past the table, which the `BUG_ON` after the loop reports. -/
def readGlobals (objs : List FileObj) : Nat → Nat → Option (List Nat)
  | _, 0 => some []
  | ggvIdx, n + 1 =>
    match objs[ggvIdx]? with
    | none => none
    | some o => (readGlobals objs (ggvIdx + 1) n).map fun rest => o.realAddr :: rest

/-- `setup_gcc_globals`: the contents of `buf->globals`. -/
def setupGccGlobals (cnt : GlobalCounts) (objs : List FileObj) : Option (List Nat) :=
  let ggvIdx := objs.findIdx tagged
  if ggvIdx = objs.length then none
  else
    (readGlobals objs ggvIdx cnt.tiMax).bind fun t0 =>
      (readGlobals objs (ggvIdx + cnt.tiMax) cnt.itkNone).bind fun t1 =>
        (readGlobals objs (ggvIdx + cnt.tiMax + cnt.itkNone) cnt.stkTypeKindLast).map fun t2 =>
          t0 ++ t1 ++ t2

/-- `get_global`: where the array starts, and its length. -/
def getGlobal (cnt : GlobalCounts) (globals : List Nat) (string : String) :
    Option (List Nat) × Nat :=
  if string = "global_trees" then (some globals, cnt.tiMax)
  else if string = "integer_types" then (some (globals.drop cnt.tiMax), cnt.itkNone)
  else if string = "sizetype_tab" then
    (some (globals.drop (cnt.tiMax + cnt.itkNone)), cnt.stkTypeKindLast)
  else (none, 0)

/-- The relocated object of an array entry: the address of the first table entry for it. -/
def relocated (objs : List FileObj) (obj : Nat) : Nat :=
  if obj = 0 then 0
  else ((objs.find? fun o => o.fakeAddr == obj).map FileObj.realAddr).getD 0

/-- The array that `get_global` is asked for holds the relocated objects of `arr`. -/
def ArrayRight (cnt : GlobalCounts) (objs : List FileObj) (globals : List Nat) (string : String)
    (arr : List Nat) : Prop :=
  ∃ ptr, getGlobal cnt globals string = (some ptr, arr.length) ∧
    ∀ i (hi : i < arr.length), ptr[i]? = some (relocated objs arr[i])

/-- After `setup_gcc_globals` every array entry gives back its object. -/
def GlobalsRight (g : GccGlobals) (objs : List FileObj) : Prop :=
  ∃ globals, setupGccGlobals (globalCounts g) objs = some globals ∧
    ArrayRight (globalCounts g) objs globals "global_trees" g.globalTrees ∧
    ArrayRight (globalCounts g) objs globals "integer_types" g.integerTypes ∧
    ArrayRight (globalCounts g) objs globals "sizetype_tab" g.sizetypeTab

/-! ## Adjusting -/

/-- What an adjustment leaves alone in an entry; an entry with bytes is left alone altogether. -/
def Settles (o o' : FileObj) : Prop :=
  o'.fakeAddr = o.fakeAddr ∧ o'.size = o.size ∧ o'.offs = o.offs ∧
    o'.gccGlobalVaridx = o.gccGlobalVaridx ∧ (written o = true → o' = o)

theorem settles_self (o : FileObj) : Settles o o := ⟨rfl, rfl, rfl, rfl, fun _ => rfl⟩

/-- A new address for an entry without bytes. -/
theorem settles_of_not_written {o : FileObj} (addr : Nat) (h : written o = false) :
    Settles o { o with realAddr := addr } :=
  ⟨rfl, rfl, rfl, rfl, fun hw => by simp [h] at hw⟩

theorem settles_clearGlobal (o : FileObj) : Settles o (clearGlobal o) := by
  unfold clearGlobal
  dsimp only
  by_cases h1 : (tagged o && o.fakeAddr == 0) = true
  · have hw : written o = false := by
      simp only [Bool.and_eq_true, beq_iff_eq] at h1
      simp [written, h1.1, h1.2]
    rw [if_pos h1]
    split
    · exact settles_of_not_written 0 hw
    · exact settles_of_not_written 0 hw
  · rw [if_neg h1]
    split
    · rename_i h2
      simp only [Bool.and_eq_true, beq_iff_eq] at h2
      exact settles_of_not_written 0 (by simp [written, h2.1, h2.2])
    · exact settles_self o

theorem clearGlobal_addr (o : FileObj) (h : (clearGlobal o).realAddr ≠ 0) :
    o.realAddr = (clearGlobal o).realAddr := by
  cases hw : written o with
  | true => rw [(settles_clearGlobal o).2.2.2.2 hw]
  | false =>
    unfold clearGlobal at h
    dsimp only at h
    split at h
    · split at h <;> exact absurd rfl h
    · split at h
      · exact absurd rfl h
      · rename_i h1 h2
        simp only [Bool.and_eq_true, beq_iff_eq, not_and] at h1 h2
        cases ht : tagged o with
        | true => simp [written, ht, h1 ht, h2 ht] at hw
        | false => simp [written, ht] at hw

/-- The first entry of every object has bytes and an address. -/
def FirstPlaced (objs : List FileObj) : Prop :=
  ∀ x o, x ≠ 0 → objs.find? (fun o => o.fakeAddr == x) = some o →
    written o = true ∧ o.realAddr ≠ 0

/-- Settling moves no first entry. -/
theorem find?_settled {p : FileObj → Bool} {x : Nat} {o : FileObj}
    (hp : ∀ o', o'.fakeAddr ≠ x → p o' = false) (hpo : p o = true) (hw : written o = true) :
    ∀ {objs objs' : List FileObj}, List.Forall₂ Settles objs objs' →
      objs.find? (fun o => o.fakeAddr == x) = some o → objs'.find? p = some o
  | _, _, .nil, h => by simp at h
  | a :: objs, a' :: objs', .cons ha hrest, h => by
    by_cases hx : a.fakeAddr = x
    · have hao : a = o := by simpa [List.find?_cons, hx] using h
      subst hao
      rw [ha.2.2.2.2 hw]
      simp [hpo]
    · have hpa : p a' = false := hp a' (by rw [ha.1]; exact hx)
      rw [List.find?_cons, hpa]
      exact find?_settled hp hpo hw hrest (by simpa [List.find?_cons, hx] using h)

/-- A lookup during the adjustment finds the address of the first entry. -/
theorem getRealAddr1_settled {objs objs' : List FileObj} (hfirst : FirstPlaced objs)
    (hset : List.Forall₂ Settles objs objs') {x : Nat} (hx : x ≠ 0)
    (hmem : ∃ o ∈ objs, o.fakeAddr = x) :
    getRealAddr1 objs' x = relocated objs x ∧ relocated objs x ≠ 0 := by
  obtain ⟨o, ho, hox⟩ := hmem
  have hsome : (objs.find? fun o => o.fakeAddr == x).isSome :=
    List.find?_isSome.mpr ⟨o, ho, by simp [hox]⟩
  obtain ⟨o₁, ho₁⟩ := Option.isSome_iff_exists.mp hsome
  obtain ⟨hw, hreal⟩ := hfirst x o₁ hx ho₁
  have hfake : o₁.fakeAddr = x := by simpa using List.find?_some ho₁
  have hfind := find?_settled (p := fun o => o.fakeAddr == x && o.realAddr != 0) (o := o₁)
    (fun o' h => by simp [h]) (by simp [hfake, hreal]) hw hset ho₁
  have hrel : relocated objs x = o₁.realAddr := by simp [relocated, hx, ho₁]
  rw [hrel]
  exact ⟨by simp [getRealAddr1, hx, hfind], hreal⟩

/-- The settled relocation is the original one. -/
theorem relocated_settled {objs objs' : List FileObj} (hfirst : FirstPlaced objs)
    (hset : List.Forall₂ Settles objs objs') {x : Nat} (hmem : ∃ o ∈ objs, o.fakeAddr = x) :
    relocated objs' x = relocated objs x := by
  by_cases hx : x = 0
  · simp [relocated, hx]
  · obtain ⟨o, ho, hox⟩ := hmem
    have hsome : (objs.find? fun o => o.fakeAddr == x).isSome :=
      List.find?_isSome.mpr ⟨o, ho, by simp [hox]⟩
    obtain ⟨o₁, ho₁⟩ := Option.isSome_iff_exists.mp hsome
    obtain ⟨hw, -⟩ := hfirst x o₁ hx ho₁
    have hfake : o₁.fakeAddr = x := by simpa using List.find?_some ho₁
    have hfind := find?_settled (p := fun o => o.fakeAddr == x) (o := o₁)
      (fun o' h => by simp [h]) (by simp [hfake]) hw hset ho₁
    simp only [relocated, if_neg hx, hfind, ho₁]

/-- An entry after the adjustment: settled, and with the address of its object when it has no
    bytes. -/
def Adjusted (objs : List FileObj) (o o' : FileObj) : Prop :=
  Settles o o' ∧ (written o = false → o'.realAddr = relocated objs o.fakeAddr)

/-- The loop over the entries still to do. -/
theorem adjustGlobals_from {objs : List FileObj} (hfirst : FirstPlaced objs) :
    ∀ {todo done done' : List FileObj}, objs = done ++ todo →
      List.Forall₂ (Adjusted objs) done done' →
        ∃ objs', adjustGlobals done' (todo.map clearGlobal) = some objs' ∧
          List.Forall₂ (Adjusted objs) objs objs'
  | [], done, done', hobjs, hdone => by
    rw [List.append_nil] at hobjs
    exact ⟨done', rfl, hobjs ▸ hdone⟩
  | o :: todo, done, done', hobjs, hdone => by
    have hsplit : objs = (done ++ [o]) ++ todo := by simp [hobjs]
    have hset := settles_clearGlobal o
    -- whatever the branch leaves in the entry, the rest of the loop goes on from there
    have hgo : ∀ o', Adjusted objs o o' → ∃ objs',
        adjustGlobals (done' ++ [o']) (todo.map clearGlobal) = some objs' ∧
          List.Forall₂ (Adjusted objs) objs objs' := fun o' ho' =>
      adjustGlobals_from hfirst hsplit (List.rel_append hdone (.cons ho' .nil))
    have htag : tagged (clearGlobal o) = tagged o := by simp [tagged, hset.2.2.2.1]
    rw [List.map_cons, adjustGlobals, htag, hset.1, hset.2.1]
    by_cases ht : tagged o = true
    · rw [if_neg (by simp [ht])]
      by_cases hf : o.fakeAddr = 0
      · have hw : written o = false := by simp [written, ht, hf]
        rw [if_pos hf]
        exact hgo _ ⟨⟨rfl, rfl, hset.2.2.1, hset.2.2.2.1, fun h => by simp [hw] at h⟩,
          fun _ => by simp [relocated, hf]⟩
      · rw [if_neg hf]
        by_cases hs : o.size = 0
        · have hw : written o = false := by simp [written, ht, hs]
          rw [if_pos hs]
          have hstate : List.Forall₂ Settles objs
              (done' ++ clearGlobal o :: todo.map clearGlobal) := by
            rw [hobjs]
            refine List.rel_append (hdone.imp fun _ _ h => h.1) (.cons hset ?_)
            rw [List.forall₂_map_right_iff]
            exact List.forall₂_same.mpr fun o _ => settles_clearGlobal o
          obtain ⟨hreal, hne⟩ := getRealAddr1_settled hfirst hstate hf
            ⟨o, by simp [hobjs], rfl⟩
          rw [hreal]
          dsimp only
          rw [if_neg hne]
          exact hgo _ ⟨⟨rfl, rfl, hset.2.2.1, hset.2.2.2.1, fun h => by simp [hw] at h⟩,
            fun _ => rfl⟩
        · have hw : written o = true := by simp [written, hf, hs]
          rw [if_neg hs, hset.2.2.2.2 hw]
          exact hgo o ⟨settles_self o, fun h => by simp [hw] at h⟩
    · have hw : written o = true := by simp [written, ht]
      rw [if_pos (by simp [ht]), hset.2.2.2.2 hw]
      exact hgo o ⟨settles_self o, fun h => by simp [hw] at h⟩

/-- **The adjustment gives every entry without bytes the address of its object.** -/
theorem adjustTable_spec {objs : List FileObj} (hfirst : FirstPlaced objs) :
    ∃ objs', adjustTable objs = some objs' ∧ List.Forall₂ (Adjusted objs) objs objs' :=
  adjustGlobals_from hfirst (by simp) .nil

/-! ## Adjusting any table -/

/-- Where an address comes from that an adjustment leaves in a table. -/
def AddrFrom (objs : List FileObj) (o' : FileObj) : Prop :=
  (o'.fakeAddr = 0 ∧ o'.realAddr = 0) ∨
    ∃ o ∈ objs, o.realAddr = o'.realAddr ∧ (o'.fakeAddr ≠ 0 → o.fakeAddr ≠ 0)

theorem getRealAddr1_mem {objs : List FileObj} {x : Nat} (hx : x ≠ 0)
    (h : getRealAddr1 objs x ≠ 0) :
    ∃ o ∈ objs, o.fakeAddr ≠ 0 ∧ o.realAddr ≠ 0 ∧ o.realAddr = getRealAddr1 objs x := by
  unfold getRealAddr1 at h ⊢
  rw [if_neg hx] at h ⊢
  cases hfind : objs.find? fun o => o.fakeAddr == x && o.realAddr != 0 with
  | none => simp [hfind] at h
  | some o =>
    have hp := List.find?_some hfind
    simp only [Bool.and_eq_true, beq_iff_eq, bne_iff_ne] at hp
    exact ⟨o, List.mem_of_find?_eq_some hfind, by rw [hp.1]; exact hx, hp.2, rfl⟩

theorem adjustGlobals_addr {objs : List FileObj} : ∀ {todo todo' done done' objs' : List FileObj},
    objs = done ++ todo → List.Forall₂ Settles done done' → (∀ o ∈ done', AddrFrom objs o) →
      todo' = todo.map clearGlobal → adjustGlobals done' todo' = some objs' →
        List.Forall₂ Settles objs objs' ∧ ∀ o ∈ objs', AddrFrom objs o
  | [], _, done, done', objs', hobjs, hset, haddr, rfl, h => by
    rw [List.append_nil] at hobjs
    cases h
    exact ⟨hobjs ▸ hset, haddr⟩
  | o :: todo, _, done, done', objs', hobjs, hset, haddr, rfl, h => by
    have hsplit : objs = (done ++ [o]) ++ todo := by simp [hobjs]
    have ho := settles_clearGlobal o
    have hmem : o ∈ objs := by simp [hobjs]
    have hgo : ∀ o', Settles o o' → AddrFrom objs o' →
        adjustGlobals (done' ++ [o']) (todo.map clearGlobal) = some objs' →
          List.Forall₂ Settles objs objs' ∧ ∀ o ∈ objs', AddrFrom objs o := by
      intro o' ho' haddr' h'
      refine adjustGlobals_addr hsplit (List.rel_append hset (.cons ho' .nil)) ?_ rfl h'
      intro x hx
      rcases List.mem_append.mp hx with hx | hx
      · exact haddr x hx
      · rw [List.mem_singleton.mp hx]
        exact haddr'
    have htag : tagged (clearGlobal o) = tagged o := by simp [tagged, ho.2.2.2.1]
    have hkeep : written o = true → Settles o (clearGlobal o) ∧ AddrFrom objs (clearGlobal o) := by
      intro hw
      rw [ho.2.2.2.2 hw]
      exact ⟨settles_self o, Or.inr ⟨o, hmem, rfl, id⟩⟩
    rw [List.map_cons, adjustGlobals, htag] at h
    by_cases ht : tagged o = true
    · rw [if_neg (by simp [ht])] at h
      by_cases hf : o.fakeAddr = 0
      · have hw : written o = false := by simp [written, ht, hf]
        rw [if_pos (ho.1.trans hf)] at h
        refine hgo _ ?_ ?_ h
        · exact ⟨ho.1, ho.2.1, ho.2.2.1, ho.2.2.2.1, fun h => by simp [hw] at h⟩
        · exact Or.inl ⟨ho.1.trans hf, rfl⟩
      · have hf' : (clearGlobal o).fakeAddr ≠ 0 := by rw [ho.1]; exact hf
        rw [if_neg hf'] at h
        by_cases hs : o.size = 0
        · have hw : written o = false := by simp [written, ht, hs]
          rw [if_pos (ho.2.1.trans hs)] at h
          dsimp only at h
          split at h
          · cases h
          · rename_i hne
            refine hgo _ ?_ ?_ h
            · exact ⟨ho.1, ho.2.1, ho.2.2.1, ho.2.2.2.1, fun h => by simp [hw] at h⟩
            -- the entry found has an address, so it is one that is done or not cleared
            obtain ⟨x, hx, hxf, hxr, heq⟩ := getRealAddr1_mem hf' hne
            have hold : AddrFrom objs x := by
              rcases List.mem_append.mp hx with hx | hx
              · exact haddr x hx
              · obtain ⟨y, hy, rfl⟩ := List.mem_map.mp (List.map_cons ▸ hx)
                refine Or.inr ⟨y, by rw [hobjs]; exact List.mem_append_right _ hy,
                  clearGlobal_addr y hxr, fun _ => ?_⟩
                rw [← (settles_clearGlobal y).1]
                exact hxf
            rcases hold with ⟨h0, -⟩ | ⟨y, hy, hyr, hyf⟩
            · exact absurd h0 hxf
            · exact Or.inr ⟨y, hy, hyr.trans heq, fun _ => hyf hxf⟩
        · have hw : written o = true := by simp [written, hf, hs]
          rw [if_neg (by rw [ho.2.1]; exact hs)] at h
          exact hgo _ (hkeep hw).1 (hkeep hw).2 h
    · have hw : written o = true := by simp [written, ht]
      rw [if_pos (by simp [ht])] at h
      exact hgo _ (hkeep hw).1 (hkeep hw).2 h

/-- **An adjustment invents no address** and leaves the other fields alone. -/
theorem adjustTable_addr {objs objs' : List FileObj} (h : adjustTable objs = some objs') :
    List.Forall₂ Settles objs objs' ∧ ∀ o ∈ objs', AddrFrom objs o :=
  adjustGlobals_addr (by simp) .nil (by simp) rfl h

theorem map_eq_of_forall₂ {α β : Type*} {R : α → α → Prop} (f : α → β)
    (hf : ∀ a b, R a b → f b = f a) : ∀ {l l' : List α}, List.Forall₂ R l l' → l'.map f = l.map f
  | _, _, .nil => rfl
  | _, _, .cons h hs => by rw [List.map_cons, List.map_cons, hf _ _ h, map_eq_of_forall₂ f hf hs]

/-- An adjusted record is still well-formed. -/
theorem adjusted_wellFormed {r : Record} {objs : List FileObj} (hr : r.WellFormed)
    (h : adjustTable r.objs = some objs) : ({ r with objs := objs } : Record).WellFormed := by
  obtain ⟨hset, haddr⟩ := adjustTable_addr h
  have hlen : objs.length = r.objs.length := hset.length_eq.symm
  have hsizes : objs.map FileObj.size = r.objs.map FileObj.size :=
    map_eq_of_forall₂ FileObj.size (fun _ _ h => h.2.1) hset
  refine ⟨hlen.trans hr.count, ?_, ?_, hr.total_pos, hr.total_le, ?_⟩
  · show fcPldptr r.hdr + (objs.map FileObj.size).sum ≤ r.hdr.objsOffs
    rw [hsizes]
    exact hr.payload_end
  · show r.hdr.objsOffs + objs.length * SIZEOF_FILE_OBJ ≤ r.hdr.totalSize
    rw [hlen]
    exact hr.table_inside
  · rcases hr.stamped with hfresh | hoffs
    · refine Or.inl fun o ho => ?_
      rcases haddr o ho with ⟨-, h0⟩ | ⟨x, hx, hxr, -⟩
      · exact h0
      · rw [← hxr]
        exact hfresh x hx
    · refine Or.inr fun i hi => ?_
      have hi' : i < r.objs.length := by rw [← hlen]; exact hi
      rw [show objs[i].offs = r.objs[i].offs from (List.Forall₂.get hset hi' hi).2.2.1, hsizes]
      exact hoffs i hi'

/-! ## The table of a collection -/

/-- A table that fits at `payload`. -/
structure Placeable (payload : Nat) (objs : List FileObj) : Prop where
  pos : 0 < payload
  sum_lt : (objs.map FileObj.size).sum < 2 ^ 32
  end_lt : payload + (objs.map FileObj.size).sum < 2 ^ 48

/-- A preview of a table without addresses gives every entry a place. -/
theorem fixObjs_fresh {payload : Nat} {objs : List FileObj} (hfresh : ∀ o ∈ objs, o.realAddr = 0)
    (hp : Placeable payload objs) (i : Nat) (hi : i < objs.length) :
    ∃ hi' : i < (fixObjs payload none objs).length,
      (fixObjs payload none objs)[i].fakeAddr = objs[i].fakeAddr ∧
      (fixObjs payload none objs)[i].gccGlobalVaridx = objs[i].gccGlobalVaridx ∧
      (fixObjs payload none objs)[i].size = objs[i].size ∧
      (fixObjs payload none objs)[i].realAddr ≠ 0 := by
  refine ⟨by simpa using hi, ?_⟩
  have hpos := hp.pos
  have hend := hp.end_lt
  have hstart := startOf_le_sum (objs.map FileObj.size) i
  rw [fixObjs_getElem payload (Or.inl hfresh) hp.sum_lt i hi, placeAt,
    if_neg (not_not.mpr (hfresh _ (List.getElem_mem hi)))]
  refine ⟨rfl, rfl, rfl, ?_⟩
  show (payload + startOf (objs.map FileObj.size) i) % 2 ^ 48 ≠ 0
  omega

/-- `tagged` and `written` only look at what previews and adjustments keep. -/
theorem written_congr {o o' : FileObj} (hf : o'.fakeAddr = o.fakeAddr) (hs : o'.size = o.size)
    (ht : o'.gccGlobalVaridx = o.gccGlobalVaridx) :
    tagged o' = tagged o ∧ written o' = written o := by
  simp [written, tagged, hf, hs, ht]

theorem firstPlaced_fixObjs {payload : Nat} {objs : List FileObj} (hfirst : FirstWritten objs)
    (hfresh : ∀ o ∈ objs, o.realAddr = 0) (hp : Placeable payload objs) :
    FirstPlaced (fixObjs payload none objs) := by
  intro x o hx hfind
  obtain ⟨hox, i, hi, rfl, hbefore⟩ := List.find?_eq_some_iff_getElem.mp hfind
  have hi' : i < objs.length := by simpa using hi
  obtain ⟨_, hf, ht, hs, hreal⟩ := fixObjs_fresh hfresh hp i hi'
  obtain ⟨htag, hwr⟩ := written_congr hf hs ht
  refine ⟨?_, hreal⟩
  rw [hwr]
  cases htagged : tagged objs[i] with
  | false => simp [written, htagged]
  | true =>
    have hfx : objs[i].fakeAddr = x := by rw [← hf]; simpa using hox
    refine (hfirst i hi' htagged (by rw [hfx]; exact hx)).mpr fun j hj => ?_
    have hj' : j < objs.length := Nat.lt_trans hj hi'
    have hne := hbefore j hj
    rw [(fixObjs_fresh hfresh hp j hj').2.1] at hne
    rw [hfx]
    simpa using hne

/-- **After the adjustment every tagged entry has the address of its object.** -/
theorem tagged_relocated {payload : Nat} {objs objs' : List FileObj} (hfirst : FirstWritten objs)
    (hfresh : ∀ o ∈ objs, o.realAddr = 0) (hp : Placeable payload objs)
    (hadj : List.Forall₂ (Adjusted (fixObjs payload none objs)) (fixObjs payload none objs) objs')
    {o : FileObj} (ho : o ∈ objs') (htag : tagged o = true) :
    o.realAddr = relocated objs' o.fakeAddr := by
  have hplaced := firstPlaced_fixObjs hfirst hfresh hp
  have hset : List.Forall₂ Settles (fixObjs payload none objs) objs' := hadj.imp fun _ _ h => h.1
  obtain ⟨i, hi, rfl⟩ := List.getElem_of_mem ho
  have hlen := hadj.length_eq
  have hi' : i < objs.length := by simpa [← hlen] using hi
  obtain ⟨hiF, hf, ht, hs, -⟩ := fixObjs_fresh hfresh hp i hi'
  have hpair : Adjusted (fixObjs payload none objs) (fixObjs payload none objs)[i] objs'[i] :=
    List.Forall₂.get hadj hiF hi
  obtain ⟨⟨hf', hs', -, ht', hsame⟩, hreal⟩ := hpair
  rw [hf', relocated_settled hplaced hset ⟨_, List.getElem_mem hiF, rfl⟩]
  cases hw : written (fixObjs payload none objs)[i] with
  | false => exact hreal hw
  | true =>
    -- an entry with bytes is the first one of its object
    rw [hsame hw]
    have htag' : tagged objs[i] = true := by
      rw [← (written_congr hf hs ht).1, ← (written_congr hf' hs' ht').1]
      exact htag
    have hw' : written objs[i] = true := by rw [← (written_congr hf hs ht).2]; exact hw
    have hne : objs[i].fakeAddr ≠ 0 := by
      intro h0
      simp [written, htag', h0] at hw'
    have hbefore := (hfirst i hi' htag' hne).mp hw'
    have hfind : (fixObjs payload none objs).find?
        (fun o => o.fakeAddr == (fixObjs payload none objs)[i].fakeAddr) =
          some (fixObjs payload none objs)[i] := by
      refine List.find?_eq_some_iff_getElem.mpr ⟨by simp, i, hiF, rfl, fun j hj => ?_⟩
      have hj' : j < objs.length := Nat.lt_trans hj hi'
      rw [(fixObjs_fresh hfresh hp j hj').2.1, hf]
      simpa using hbefore j hj
    rw [relocated, if_neg (by rw [hf]; exact hne), hfind]
    rfl

/-! ## Reading the arrays -/

theorem readGlobals_eq {objs : List FileObj} : ∀ (ggvIdx n : Nat), ggvIdx + n ≤ objs.length →
    readGlobals objs ggvIdx n = some (((objs.drop ggvIdx).take n).map FileObj.realAddr)
  | _, 0, _ => by simp [readGlobals]
  | ggvIdx, n + 1, h => by
    have hlt : ggvIdx < objs.length := by omega
    rw [readGlobals, List.getElem?_eq_getElem hlt]
    dsimp only
    rw [readGlobals_eq (ggvIdx + 1) n (by omega), List.drop_eq_getElem_cons hlt]
    rfl

/-- `setup_gcc_globals` takes consecutive entries from the first tagged one on. -/
theorem setupGccGlobals_eq {cnt : GlobalCounts} {objs : List FileObj}
    (hroom : objs.findIdx tagged + (cnt.tiMax + cnt.itkNone + cnt.stkTypeKindLast) ≤ objs.length)
    (hsome : objs.findIdx tagged < objs.length) :
    setupGccGlobals cnt objs =
      some (((objs.drop (objs.findIdx tagged)).take
        (cnt.tiMax + cnt.itkNone + cnt.stkTypeKindLast)).map FileObj.realAddr) := by
  rw [setupGccGlobals, if_neg (by omega), readGlobals_eq _ _ (by omega),
    readGlobals_eq _ _ (by omega),
    readGlobals_eq _ _ (by omega)]
  simp only [Option.bind_some, Option.map_some, List.take_add, List.map_append, List.drop_drop,
    Nat.add_assoc, List.append_assoc]

/-- The three arrays are right together when the entries are, in order. -/
theorem arrays_iff (g : GccGlobals) (objs : List FileObj) (globals : List Nat) :
    (ArrayRight (globalCounts g) objs globals "global_trees" g.globalTrees ∧
      ArrayRight (globalCounts g) objs globals "integer_types" g.integerTypes ∧
      ArrayRight (globalCounts g) objs globals "sizetype_tab" g.sizetypeTab) ↔
    ∀ n (hn : n < g.all.length), globals[n]? = some (relocated objs g.all[n]) := by
  have htrees : ArrayRight (globalCounts g) objs globals "global_trees" g.globalTrees ↔
      ∀ i (hi : i < g.globalTrees.length),
        globals[i]? = some (relocated objs g.globalTrees[i]) := by
    simp [ArrayRight, getGlobal, globalCounts]
  have hints : ArrayRight (globalCounts g) objs globals "integer_types" g.integerTypes ↔
      ∀ i (hi : i < g.integerTypes.length),
        globals[g.globalTrees.length + i]? = some (relocated objs g.integerTypes[i]) := by
    simp [ArrayRight, getGlobal, globalCounts]
  have hsizes : ArrayRight (globalCounts g) objs globals "sizetype_tab" g.sizetypeTab ↔
      ∀ i (hi : i < g.sizetypeTab.length),
        globals[g.globalTrees.length + g.integerTypes.length + i]? =
          some (relocated objs g.sizetypeTab[i]) := by
    simp [ArrayRight, getGlobal, globalCounts]
  rw [htrees, hints, hsizes, GccGlobals.all, forall_getElem_append
    (P := fun n obj => globals[n]? = some (relocated objs obj)), forall_getElem_append
    (P := fun n obj => globals[n]? = some (relocated objs obj)), List.length_append, and_assoc]

/-- What previews and adjustments keep of an entry. -/
def Same (o o' : FileObj) : Prop :=
  o'.fakeAddr = o.fakeAddr ∧ o'.size = o.size ∧ o'.gccGlobalVaridx = o.gccGlobalVaridx

theorem same_adjusted {payload : Nat} {objs objs' : List FileObj}
    (hfresh : ∀ o ∈ objs, o.realAddr = 0) (hp : Placeable payload objs)
    (hadj : List.Forall₂ (Adjusted (fixObjs payload none objs)) (fixObjs payload none objs) objs') :
    List.Forall₂ Same objs objs' := by
  have hlen := hadj.length_eq
  refine List.forall₂_iff_get.mpr ⟨by simpa using hlen, fun i hi hi' => ?_⟩
  obtain ⟨hiF, hf, ht, hs, -⟩ := fixObjs_fresh hfresh hp i hi
  obtain ⟨⟨hf', hs', -, ht', -⟩, -⟩ := List.Forall₂.get hadj hiF hi'
  exact ⟨hf'.trans hf, hs'.trans hs, ht'.trans ht⟩

theorem tagged_same {o o' : FileObj} (h : Same o o') : tagged o' = tagged o :=
  (written_congr h.1 h.2.1 h.2.2).1

theorem untagged_same {l l' : List FileObj} (h : List.Forall₂ Same l l')
    (hl : ∀ o ∈ l, tagged o = false) : ∀ o ∈ l', tagged o = false := by
  intro o ho
  obtain ⟨i, hi, rfl⟩ := List.getElem_of_mem ho
  have hi' : i < l.length := by rw [h.length_eq]; exact hi
  rw [show tagged l'[i] = tagged l[i] from tagged_same (List.Forall₂.get h hi' hi)]
  exact hl _ (List.getElem_mem hi')

/-- A block keeps its shape and its object. -/
theorem globalBlock_same {obj : Nat} {b b' : List FileObj} (hb : GlobalBlock obj b)
    (h : List.Forall₂ Same b b') :
    IsBlock tagged b' ∧ ∃ o, b'.head? = some o ∧ o.fakeAddr = obj := by
  obtain ⟨x, xs, rfl, hx, hxs⟩ := hb.isBlock
  obtain ⟨o, ho, hfake⟩ := hb.head
  cases h with
  | @cons _ x' _ xs' hhead htail =>
    have hox : x = o := by simpa using ho
    refine ⟨⟨x', xs', rfl, (tagged_same hhead).trans hx, untagged_same htail hxs⟩, x', rfl, ?_⟩
    rw [hhead.1, hox, hfake]

/-- The adjusted table, cut into the declarations and the blocks of the array entries. -/
theorem adjusted_blocks {w : Walk} {g : GccGlobals} {roots objs objs' : List FileObj}
    {payload : Nat} (hroots : ∀ o ∈ roots, tagged o = false ∧ o.realAddr = 0)
    (hcollect : collectGlobalData w roots g = some objs) (hp : Placeable payload objs)
    (hadj : adjustTable (fixObjs payload none objs) = some objs') :
    ∃ roots' blocks, objs' = roots' ++ blocks.flatten ∧ (∀ o ∈ roots', tagged o = false) ∧
      List.Forall₂ (fun obj b => IsBlock tagged b ∧
        ∃ o, b.head? = some o ∧ o.realAddr = relocated objs' obj) g.all blocks := by
  have hfirst₀ : FirstWritten roots := by
    intro i hi htag
    rw [(hroots _ (List.getElem_mem hi)).1] at htag
    cases htag
  obtain ⟨hfirst, blocks, hobjs, hblocks⟩ := collectGlobalData_blocks hfirst₀ hcollect
  have hfresh : ∀ o ∈ objs, o.realAddr = 0 := by
    intro o ho
    rw [hobjs] at ho
    rcases List.mem_append.mp ho with ho | ho
    · exact (hroots o ho).2
    · obtain ⟨b, hb, hob⟩ := List.mem_flatten.mp ho
      obtain ⟨i, hi, rfl⟩ := List.getElem_of_mem hb
      exact (List.Forall₂.get hblocks (by rw [hblocks.length_eq]; exact hi) hi).fresh o hob
  obtain ⟨objs₁, hadj₁, hadjusted⟩ := adjustTable_spec (firstPlaced_fixObjs hfirst hfresh hp)
  obtain rfl : objs₁ = objs' := Option.some.inj (hadj₁.symm.trans hadj)
  have hsame := same_adjusted hfresh hp hadjusted
  rw [hobjs, ← List.flatten_cons] at hsame
  obtain ⟨bs, hbs, hparts⟩ := forall₂_flatten_left hsame
  cases hparts with
  | @cons _ roots' _ blocks' hr hb =>
    rw [List.flatten_cons] at hbs
    refine ⟨roots', blocks', hbs, untagged_same hr fun o ho => (hroots o ho).1, ?_⟩
    refine List.forall₂_iff_get.mpr ⟨hblocks.length_eq.trans hb.length_eq, fun i hi hi' => ?_⟩
    have hi₀ : i < blocks.length := by rw [hb.length_eq]; exact hi'
    obtain ⟨hblock, o, ho, hfake⟩ :=
      globalBlock_same (List.Forall₂.get hblocks hi hi₀) (List.Forall₂.get hb hi₀ hi')
    refine ⟨hblock, o, ho, ?_⟩
    have hmem : o ∈ objs₁ := by
      rw [hbs]
      exact List.mem_append_right _
        (List.mem_flatten.mpr ⟨_, List.getElem_mem hi', List.mem_of_head? ho⟩)
    have htag : tagged o = true := by
      obtain ⟨x, xs, hx, htag, -⟩ := hblock
      rw [hx] at ho
      rw [← Option.some.inj ho]
      exact htag
    rw [tagged_relocated hfirst hfresh hp hadjusted hmem htag, hfake]

/-- **The arrays come back right exactly when the entries that lag behind come in turn.** -/
theorem globals_exact (w : Walk) (g : GccGlobals) (roots objs objs' : List FileObj) (payload : Nat)
    (hroots : ∀ o ∈ roots, tagged o = false ∧ o.realAddr = 0)
    (hcollect : collectGlobalData w roots g = some objs) (hp : Placeable payload objs)
    (hadj : adjustTable (fixObjs payload none objs) = some objs') :
    GlobalsRight g objs' ↔
      InTurn [] ((blocksOf tagged (objs'.drop (objs'.findIdx tagged))).map fun b =>
        b.map FileObj.realAddr) := by
  obtain ⟨roots', blocks, hobjs', hroots', hblocks⟩ := adjusted_blocks hroots hcollect hp hadj
  have hisBlock : ∀ b ∈ blocks, IsBlock tagged b := by
    intro b hb
    obtain ⟨i, hi, rfl⟩ := List.getElem_of_mem hb
    exact (List.Forall₂.get hblocks (by rw [hblocks.length_eq]; exact hi) hi).1
  have hlen : blocks.length = g.all.length := hblocks.length_eq.symm
  have hpos : 0 < g.all.length := by
    have := g.some_tree
    simp only [GccGlobals.all, List.length_append]
    omega
  have hroom : blocks.length ≤ blocks.flatten.length :=
    length_le_flatten fun b hb => (hisBlock b hb).ne_nil
  -- the first tagged entry is the head of the first block
  have hidx : objs'.findIdx tagged = roots'.length := by
    cases blocks with
    | nil => rw [List.length_nil] at hlen; omega
    | cons b bs =>
      obtain ⟨x, xs, rfl, hx, -⟩ := hisBlock b List.mem_cons_self
      have hnone : roots'.findIdx tagged = roots'.length :=
        List.findIdx_eq_length.mpr hroots'
      rw [hobjs', List.findIdx_append, hnone]
      simp [List.findIdx_cons, hx]
  have hdrop : objs'.drop roots'.length = blocks.flatten := by rw [hobjs']; simp
  have hsetup := @setupGccGlobals_eq (globalCounts g) objs' (by
    rw [hidx, hobjs', List.length_append]
    simp only [globalCounts, GccGlobals.all, List.length_append] at hlen ⊢
    omega) (by rw [hidx, hobjs', List.length_append]; omega)
  rw [hidx, hdrop] at hsetup
  rw [hidx, hdrop, blocksOf_flatten hisBlock,
    ← reads_iff_inTurn _ [] (by
      intro b hb
      obtain ⟨b', hb', rfl⟩ := List.mem_map.mp hb
      simpa using (hisBlock b' hb').ne_nil)]
  have hread : GlobalsRight g objs' ↔ ∀ n (hn : n < g.all.length),
      ((blocks.flatten.take ((globalCounts g).tiMax + (globalCounts g).itkNone +
        (globalCounts g).stkTypeKindLast)).map FileObj.realAddr)[n]? =
          some (relocated objs' g.all[n]) := by
    rw [GlobalsRight, hsetup]
    simp only [Option.some.injEq, exists_eq_left', arrays_iff]
  have hcount : (globalCounts g).tiMax + (globalCounts g).itkNone +
      (globalCounts g).stkTypeKindLast = g.all.length := by
    simp [globalCounts, GccGlobals.all, Nat.add_assoc]
  rw [hread, hcount]
  have hhead : ∀ n (hn : n < g.all.length) (hn' : n < blocks.length),
      (blocks[n].map FileObj.realAddr).head? = some (relocated objs' g.all[n]) := by
    intro n hn hn'
    obtain ⟨-, o, ho, hreal⟩ := List.Forall₂.get hblocks hn hn'
    rw [List.head?_map]
    have ho' : blocks[n].head? = some o := ho
    rw [ho', Option.map_some, hreal]
    rfl
  constructor
  · intro h n hn
    have hn' : n < blocks.length := by simpa using hn
    have := h n (by omega)
    rw [List.map_take, List.getElem?_take_of_lt (by omega)] at this
    simpa [List.map_flatten, hhead n (by omega) hn'] using this
  · intro h n hn
    have hn' : n < blocks.length := by omega
    have := h n (by simpa using hn')
    rw [List.map_take, List.getElem?_take_of_lt hn]
    simpa [List.map_flatten, hhead n hn hn'] using this

/-- A walk that finds one more object behind `0x100` only. -/
def smallWalk : Walk where
  doTree _ obj := { FileObj.zero with fakeAddr := obj, size := 16 } ::
    if obj = 0x100 then [{ FileObj.zero with fakeAddr := 0x108, size := 8 }] else []
  own _ obj := by
    refine ⟨16, _, by decide, rfl, fun s hs => ?_⟩
    split at hs
    · rw [List.mem_singleton.mp hs]
      decide
    · cases hs

/-- A table with one declaration. -/
def smallRoots : List FileObj := [{ FileObj.zero with fakeAddr := 0x50, size := 8 }]

/-- Fresh, NULL and shared entries; only the last one has an object behind its own. -/
def flatGlobals : GccGlobals := ⟨[0x200, 0], [0x50], [0x100], by decide, by decide⟩

/-- The first entry has an object behind its own. -/
def shiftedGlobals : GccGlobals := ⟨[0x100, 0x200], [], [], by decide, by decide⟩

/-- The adjusted table of `flatGlobals`. -/
def flatTable : List FileObj :=
  [⟨0x50, 0x1000000040, 8, 0, 0⟩, ⟨0x200, 0x1000000048, 16, 8, 1⟩, ⟨0, 0, 0, 24, 2⟩,
    ⟨0x50, 0x1000000040, 0, 24, 3⟩, ⟨0x100, 0x1000000058, 16, 24, 4⟩,
    ⟨0x108, 0x1000000068, 8, 40, 0⟩]

theorem flatTable_right : GlobalsRight flatGlobals flatTable := by
  refine (globals_exact smallWalk flatGlobals smallRoots _ flatTable 0x1000000040 (by decide) rfl
    ⟨by decide, by decide, by decide⟩ rfl).mpr (inTurn_nil ?_)
  simp [blocksOf, flatTable, tagged, List.findIdx_cons]

/-- With an object between two registered entries `global_trees[1]` is that object. -/
theorem sub_object_shifts_globals : ∃ objs objs',
    collectGlobalData smallWalk smallRoots shiftedGlobals = some objs ∧
      adjustTable (fixObjs 0x1000000040 none objs) = some objs' ∧
        ¬ GlobalsRight shiftedGlobals objs' := by
  refine ⟨_, _, rfl, rfl, ?_⟩
  rintro ⟨globals, hset, ⟨ptr, hget, hall⟩, -⟩
  cases hset
  cases hget
  exact absurd (hall 1 (by decide)) (by decide)

end Srcinv.Analysis
