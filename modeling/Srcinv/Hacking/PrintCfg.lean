import Mathlib.Data.List.Chain
import Mathlib.Data.List.Nodup
import Srcinv.Analysis.MarkEntry

/-!
# Printing the call graph (`hacking/print_cfg_func.cc`)

`print_cfg_func` prints a function and, indented, the functions that it calls.  A function that is
on the path to it already is printed without those; `func_id` has the ids of the path, by depth.

* `printCfg_exact` — every index into `func_id` is below its size exactly when no path of calls
  without repetition has one more function than that.
* `longCalls_overrun` — a path of as many functions as `CALL_DEPTH_MAX` and one.
-/

namespace Srcinv.Hacking

open Srcinv.Analysis

/-! ## The code -/

/-- The `func_node` of a function with a body. -/
structure CfgNode where
  callDepth : Nat
  callees : List CallfList

/-- A function's sinode. -/
structure CfgSinode where
  id1 : Nat
  name : Name
  data : Option CfgNode

/-- The part of the src that is printed.  `siidType` is the type of an id, `search` the search by
    id. -/
structure CfgSrc where
  sinodes : Nat → CfgSinode
  siidType : Nat → Nat
  search : Nat → Option Nat
  funcGlobal : List Nat

/-- What stands in front of a line: a function's name, `"0x%lx"` or `"internal_fn(%ld)"`. -/
inductive LineName where
  | func (name : Name)
  | value (value : Nat)
  | internalFn (value : Nat)
  deriving DecidableEq, Repr

/-- A line; `nested` is the suffix. -/
structure CfgLine where
  name : LineName
  level : Nat
  nested : Bool
  tabs : Nat
  deriving DecidableEq, Repr

/-- The array `func_id`, what was printed, and the indices into the array so far. -/
structure PrintState where
  funcId : Nat → Nat
  lines : List CfgLine
  indices : List Nat

namespace PrintState

/-- `__print`. -/
def print (s : PrintState) (name : LineName) (level : Nat) (nested : Bool) (tabs : Nat) :
    PrintState := { s with lines := s.lines ++ [⟨name, level, nested, tabs⟩] }

/-- `reset_func_id_arr`. -/
def reset (s : PrintState) : PrintState := { s with funcId := fun _ => 0 }

/-- What `func_id_arr_find` returns. -/
def funcIdArrFind (s : PrintState) (id depth : Nat) : Option Nat :=
  (List.range depth).find? fun i => s.funcId i == id

/-- `func_id_arr_find` looks at the entries up to the one it finds. -/
def look (s : PrintState) (id depth : Nat) : PrintState :=
  match s.funcIdArrFind id depth with
  | some i => { s with indices := s.indices ++ List.range (i + 1) }
  | none => { s with indices := s.indices ++ List.range depth }

/-- `func_id[tabs] = id`. -/
def setFuncId (s : PrintState) (tabs id : Nat) : PrintState :=
  { s with funcId := Function.update s.funcId tabs id, indices := s.indices ++ [tabs] }

end PrintState

variable (C : CfgSrc) (maxTabs : Int)

/-- The body of the loop over the callees; `sub` prints a function one level below. -/
def printCallee (callDepth tabs : Nat) (sub : Nat → PrintState → PrintState) (s : PrintState)
    (tmp : CallfList) : PrintState :=
  if tmp.valueFlag = 1 then s.print (.value tmp.value) (callDepth + 1) false (tabs + 1)
  else if C.siidType tmp.value = 0 then
    s.print (.internalFn tmp.value) (callDepth + 1) false (tabs + 1)
  else
    match C.search tmp.value with
    | none => s
    | some calleeFsn => if maxTabs = 0 ∨ tabs < maxTabs then sub calleeFsn s else s

/-- `__do_single_func`. -/
def doSingleFuncAt (fsn tabs : Nat) (s : PrintState) : Int × PrintState :=
  if _h : CALL_DEPTH_MAX < tabs then (-1, s)
  else
    let sn := C.sinodes fsn
    let callDepth := (sn.data.map CfgNode.callDepth).getD 0
    let s := if tabs = 0 then s.reset else s
    let found := s.funcIdArrFind sn.id1 tabs
    let s := s.look sn.id1 tabs
    if found.isSome then (0, s.print (.func sn.name) callDepth true tabs)
    else
      match sn.data with
      | none => (0, s.print (.func sn.name) callDepth false tabs)
      | some fn =>
        let s := (s.print (.func sn.name) callDepth false tabs).setFuncId tabs sn.id1
        (0, fn.callees.foldl (printCallee C maxTabs callDepth tabs fun calleeFsn s =>
          (doSingleFuncAt calleeFsn (tabs + 1) s).2) s)
  termination_by CALL_DEPTH_MAX + 1 - tabs
  decreasing_by omega

/-- `do_single_func`. -/
def doSingleFunc (funcid : Nat) (s : PrintState) : Int × PrintState :=
  match C.search funcid with
  | none => (-1, s)
  | some fsn =>
    if (C.sinodes fsn).data.isNone then (0, s) else doSingleFuncAt C maxTabs fsn 0 s

/-- `__match`. -/
def cfgMatch (fsn : Nat) : Bool :=
  match (C.sinodes fsn).data with
  | none => false
  | some fn => fn.callDepth = 1

/-- `do_all_func`. -/
def doAllFunc (s : PrintState) : Int × PrintState :=
  (0, C.funcGlobal.foldl (fun s fsn =>
    if cfgMatch C fsn then (doSingleFuncAt C maxTabs fsn 0 s).2 else s) s)

/-- `do_cb`. -/
def doCb (funcid : Nat) (s : PrintState) : Int × PrintState :=
  if funcid ≠ 0 then doSingleFunc C maxTabs funcid s else doAllFunc C maxTabs s

/-! ## The indices -/

/-- The array as the command finds it, before anything is printed. -/
def PrintState.start (funcId : Nat → Nat) : PrintState := ⟨funcId, [], []⟩

/-- Every index so far is below the size of `func_id`. -/
def IndicesIn (s : PrintState) : Prop := ∀ k ∈ s.indices, k < CALL_DEPTH_MAX

/-- The function that an entry of `callees` leads to. -/
def calledSinode (tmp : CallfList) : Option Nat :=
  if tmp.valueFlag = 1 then none
  else if C.siidType tmp.value = 0 then none
  else C.search tmp.value

/-- An edge of the call graph. -/
def CfgCalls (f g : Nat) : Prop :=
  ∃ fn, (C.sinodes f).data = some fn ∧ ∃ tmp ∈ fn.callees, calledSinode C tmp = some g

/-- The ids of a path. -/
def pathIds (path : List Nat) : List Nat := path.map fun f => (C.sinodes f).id1

/-- The visit of `f` with `path` before it comes to the function that is written behind the
    array. -/
inductive Overruns : List Nat → Nat → Prop
  | last {path : List Nat} {f : Nat} (hlen : path.length = CALL_DEPTH_MAX)
    (hnew : (C.sinodes f).id1 ∉ pathIds C path) (hdata : (C.sinodes f).data.isSome) :
    Overruns path f
  | deeper {path : List Nat} {f g : Nat} (hlen : path.length < CALL_DEPTH_MAX)
    (hnew : (C.sinodes f).id1 ∉ pathIds C path)
    (hlevel : maxTabs = 0 ∨ (path.length : Int) < maxTabs) (hcall : CfgCalls C f g)
    (hg : Overruns (path ++ [f]) g) : Overruns path f

/-- The array has the ids of the path. -/
def HasPath (path : List Nat) (s : PrintState) : Prop :=
  ∀ i, i < path.length → (pathIds C path)[i]? = some (s.funcId i)

variable {C maxTabs} {path : List Nat} {f : Nat} {s s' : PrintState}

theorem HasPath.kept (h : HasPath C path s)
    (hkept : ∀ i, i < path.length → s'.funcId i = s.funcId i) : HasPath C path s' := by
  intro i hi
  rw [hkept i hi]
  exact h i hi

/-- The search of the array is one of the path. -/
theorem HasPath.find (h : HasPath C path s) (id : Nat) :
    (s.funcIdArrFind id path.length).isSome ↔ id ∈ pathIds C path := by
  unfold PrintState.funcIdArrFind
  rw [List.find?_isSome]
  constructor
  · rintro ⟨i, hi, hid⟩
    have hget := h i (List.mem_range.mp hi)
    rw [eq_of_beq hid] at hget
    exact List.mem_of_getElem? hget
  · intro hmem
    obtain ⟨i, hi, hget⟩ := List.mem_iff_getElem.mp hmem
    have hlt : i < path.length := by simpa [pathIds] using hi
    refine ⟨i, List.mem_range.mpr hlt, ?_⟩
    have hid := h i hlt
    rw [List.getElem?_eq_getElem hi, hget] at hid
    exact beq_iff_eq.mpr (Option.some.inj hid).symm

/-- Indices before one that is in the array are in it. -/
theorem range_indices {old : List Nat} {n : Nat} (hn : n ≤ CALL_DEPTH_MAX) :
    (∀ k ∈ old ++ List.range n, k < CALL_DEPTH_MAX) ↔ ∀ k ∈ old, k < CALL_DEPTH_MAX := by
  constructor
  · exact fun h k hk => h k (List.mem_append_left _ hk)
  · intro h k hk
    rcases List.mem_append.mp hk with hk | hk
    · exact h k hk
    · exact Nat.lt_of_lt_of_le (List.mem_range.mp hk) hn

/-- What `func_id_arr_find` looks at lies before the end of the path. -/
theorem look_indices (id : Nat) {depth : Nat} (hdepth : depth ≤ CALL_DEPTH_MAX) :
    IndicesIn (s.look id depth) ↔ IndicesIn s := by
  unfold PrintState.look IndicesIn
  split
  · rename_i i hi
    have hlt : i < depth := List.mem_range.mp (List.mem_of_find?_eq_some hi)
    exact range_indices (by omega)
  · exact range_indices hdepth

theorem setFuncId_indices {tabs id : Nat} :
    IndicesIn (s.setFuncId tabs id) ↔ IndicesIn s ∧ tabs < CALL_DEPTH_MAX := by
  unfold PrintState.setFuncId IndicesIn
  constructor
  · intro h
    exact ⟨fun k hk => h k (List.mem_append_left _ hk), h tabs (by simp)⟩
  · rintro ⟨h, htabs⟩ k hk
    rcases List.mem_append.mp hk with hk | hk
    · exact h k hk
    · rw [List.mem_singleton.mp hk]
      exact htabs

@[simp] theorem look_funcId (id depth : Nat) : (s.look id depth).funcId = s.funcId := by
  unfold PrintState.look
  split <;> rfl

/-! ## A visit -/

/-- A visit with a path leaves the ids of the path, and stays in the array unless it overruns. -/
structure Visited (path : List Nat) (bad : Prop) (s s' : PrintState) : Prop where
  kept : ∀ i, i < path.length → s'.funcId i = s.funcId i
  indices : IndicesIn s' ↔ IndicesIn s ∧ ¬ bad

theorem Visited.refl {bad : Prop} (h : ¬ bad) (s : PrintState) : Visited path bad s s :=
  ⟨fun _ _ => rfl, (and_iff_left h).symm⟩

theorem Visited.trans {bad bad' : Prop} {s'' : PrintState} (h : Visited path bad s s')
    (h' : Visited path bad' s' s'') : Visited path (bad ∨ bad') s s'' where
  kept i hi := (h'.kept i hi).trans (h.kept i hi)
  indices := by rw [h'.indices, h.indices, not_or, and_assoc]

/-- A line changes nothing. -/
theorem Visited.print {bad : Prop} (h : Visited path bad s s') (name : LineName) (level : Nat)
    (nested : Bool) (tabs : Nat) : Visited path bad s (s'.print name level nested tabs) :=
  ⟨h.kept, h.indices⟩

section Loop

variable {callDepth tabs : Nat} {sub : Nat → PrintState → PrintState} {bad : Nat → Prop}

theorem printCallee_visited (hsub : ∀ g s, HasPath C path s → Visited path (bad g) s (sub g s))
    (hs : HasPath C path s) (tmp : CallfList) :
    Visited path ((maxTabs = 0 ∨ (tabs : Int) < maxTabs) ∧
        ∃ g, calledSinode C tmp = some g ∧ bad g) s
      (printCallee C maxTabs callDepth tabs sub s tmp) := by
  have hskip : ∀ g, calledSinode C tmp = none →
      ¬ ((maxTabs = 0 ∨ (tabs : Int) < maxTabs) ∧ calledSinode C tmp = some g ∧ bad g) := by
    rintro g hnone ⟨-, hsome, -⟩
    rw [hnone] at hsome
    cases hsome
  unfold printCallee
  split
  · rename_i hflag
    refine (Visited.refl ?_ s).print _ _ _ _
    rintro ⟨hlevel, g, hg⟩
    exact hskip g (if_pos hflag) ⟨hlevel, hg⟩
  rename_i hflag
  split
  · rename_i htype
    refine (Visited.refl ?_ s).print _ _ _ _
    rintro ⟨hlevel, g, hg⟩
    exact hskip g (by unfold calledSinode; rw [if_neg hflag, if_pos htype]) ⟨hlevel, hg⟩
  rename_i htype
  have hcalled : calledSinode C tmp = C.search tmp.value := by
    unfold calledSinode
    rw [if_neg hflag, if_neg htype]
  split
  · rename_i hnone
    refine Visited.refl ?_ s
    rintro ⟨hlevel, g, hg⟩
    exact hskip g (hcalled.trans hnone) ⟨hlevel, hg⟩
  · rename_i g hsome
    split
    · rename_i hlevel
      have hvisit := hsub g s hs
      refine ⟨hvisit.kept, hvisit.indices.trans (and_congr_right fun _ => not_congr ?_)⟩
      rw [hcalled, hsome]
      constructor
      · exact fun h => ⟨hlevel, g, rfl, h⟩
      · rintro ⟨-, g', hg', h⟩
        cases hg'
        exact h
    · rename_i hlevel
      exact Visited.refl (fun h => hlevel h.1) s

theorem printCallees_visited
    (hsub : ∀ g s, HasPath C path s → Visited path (bad g) s (sub g s)) :
    ∀ (callees : List CallfList) {s : PrintState}, HasPath C path s →
      Visited path ((maxTabs = 0 ∨ (tabs : Int) < maxTabs) ∧
          ∃ tmp ∈ callees, ∃ g, calledSinode C tmp = some g ∧ bad g) s
        (callees.foldl (printCallee C maxTabs callDepth tabs sub) s)
  | [], s, _ => Visited.refl (by simp) s
  | tmp :: rest, s, hs => by
    have hfirst := @printCallee_visited C maxTabs path s callDepth tabs sub bad hsub hs tmp
    have hrest := printCallees_visited hsub rest (hs.kept hfirst.kept)
    have hall := hfirst.trans hrest
    refine ⟨hall.kept, hall.indices.trans (and_congr_right fun _ => not_congr ?_)⟩
    rw [← and_or_left]
    refine and_congr_right fun _ => ?_
    simp [List.mem_cons]

end Loop

theorem setFuncId_self (s : PrintState) (tabs id : Nat) :
    (s.setFuncId tabs id).funcId tabs = id := Function.update_self ..

theorem setFuncId_lt {tabs i : Nat} (s : PrintState) (id : Nat) (hi : i < tabs) :
    (s.setFuncId tabs id).funcId i = s.funcId i := Function.update_of_ne (by omega) ..

theorem pathIds_concat (path : List Nat) (f : Nat) :
    pathIds C (path ++ [f]) = pathIds C path ++ [(C.sinodes f).id1] := List.map_append

theorem HasPath.push (h : HasPath C path s) (hnew : s'.funcId path.length = (C.sinodes f).id1)
    (hkept : ∀ i, i < path.length → s'.funcId i = s.funcId i) : HasPath C (path ++ [f]) s' := by
  intro i hi
  rw [List.length_append, List.length_singleton] at hi
  have hlen : (pathIds C path).length = path.length := List.length_map _
  rw [pathIds_concat]
  rcases Nat.lt_or_ge i path.length with hlt | hge
  · rw [List.getElem?_append_left (by omega), hkept i hlt]
    exact h i hlt
  · obtain rfl : i = path.length := by omega
    rw [← hlen, List.getElem?_concat_length, hlen, hnew]

/-- A function with a body that is not on the path overruns at the end of the array, or below. -/
theorem not_overruns_iff (hle : path.length ≤ CALL_DEPTH_MAX)
    (hnew : (C.sinodes f).id1 ∉ pathIds C path) {fn : CfgNode}
    (hdata : (C.sinodes f).data = some fn) :
    ¬ Overruns C maxTabs path f ↔ path.length < CALL_DEPTH_MAX ∧
      ¬ ((maxTabs = 0 ∨ (path.length : Int) < maxTabs) ∧ ∃ tmp ∈ fn.callees, ∃ g,
        calledSinode C tmp = some g ∧ Overruns C maxTabs (path ++ [f]) g) := by
  constructor
  · intro h
    have hlt : path.length < CALL_DEPTH_MAX := by
      by_contra hge
      exact h (.last (by omega) hnew (by rw [hdata]; rfl))
    refine ⟨hlt, ?_⟩
    rintro ⟨hlevel, tmp, htmp, g, hg, hbad⟩
    exact h (.deeper hlt hnew hlevel ⟨fn, hdata, tmp, htmp, hg⟩ hbad)
  · rintro ⟨hlt, hno⟩ (⟨hlen, -, -⟩ | ⟨-, -, hlevel, ⟨fn', hfn', tmp, htmp, hg⟩, hbad⟩)
    · omega
    · rw [hdata] at hfn'
      cases hfn'
      exact hno ⟨hlevel, tmp, htmp, _, hg, hbad⟩

/-- What a visit does that cannot overrun. -/
theorem Visited.of_not {bad : Prop} (h : Visited path False s s') (hbad : ¬ bad) :
    Visited path bad s s' :=
  ⟨h.kept, h.indices.trans (and_congr_right fun _ => not_congr (iff_of_false not_false hbad))⟩

/-- The array is cleared before the first function. -/
theorem enter_visited (s : PrintState) :
    Visited path False s (if path.length = 0 then s.reset else s) := by
  split
  · rename_i hzero
    exact ⟨fun i hi => absurd hi (by omega), by simp [IndicesIn, PrintState.reset]⟩
  · exact Visited.refl not_false s

/-- **A visit leaves the ids of its path, and stays in the array unless it overruns.** -/
theorem doSingleFuncAt_visited : ∀ (room : Nat) {path : List Nat} (f : Nat) {s : PrintState},
    CALL_DEPTH_MAX + 1 - path.length = room → HasPath C path s →
      Visited path (Overruns C maxTabs path f) s (doSingleFuncAt C maxTabs f path.length s).2
  | 0, path, f, s, hroom, hs => by
    unfold doSingleFuncAt
    rw [dif_pos (by omega)]
    refine Visited.refl ?_ s
    rintro (⟨hlen⟩ | ⟨hlen⟩) <;> omega
  | room + 1, path, f, s, hroom, hs => by
    have hmax : ¬ CALL_DEPTH_MAX < path.length := by omega
    have hs₀ := @enter_visited path s
    have hpath := hs.kept hs₀.kept
    unfold doSingleFuncAt
    rw [dif_neg hmax]
    dsimp only
    generalize (if path.length = 0 then s.reset else s) = s₀ at hs₀ hpath ⊢
    -- the search leaves the array as it is
    have hlook : Visited path False s (s₀.look (C.sinodes f).id1 path.length) := by
      refine ⟨fun i hi => ?_, ?_⟩
      · rw [look_funcId, hs₀.kept i hi]
      · rw [look_indices _ (by omega), hs₀.indices]
    have hfind := hpath.find (C.sinodes f).id1
    split
    · rename_i hfound
      have hold := hfind.mp hfound
      refine (hlook.of_not ?_).print _ _ _ _
      rintro (⟨-, hnew, -⟩ | ⟨-, hnew, -, -, -⟩) <;> exact hnew hold
    rename_i hfound
    have hnew : (C.sinodes f).id1 ∉ pathIds C path := fun hmem => hfound (hfind.mpr hmem)
    split
    · rename_i hdata
      refine (hlook.of_not ?_).print _ _ _ _
      rintro (⟨-, -, hsome⟩ | ⟨-, -, -, hcall, -⟩)
      · simp [hdata] at hsome
      · obtain ⟨fn, hfn, -⟩ := hcall
        simp [hdata] at hfn
    · rename_i fn hdata
      have hlen : (path ++ [f]).length = path.length + 1 := by
        rw [List.length_append, List.length_singleton]
      have hsub : ∀ g t, HasPath C (path ++ [f]) t →
          Visited (path ++ [f]) (Overruns C maxTabs (path ++ [f]) g) t
            (doSingleFuncAt C maxTabs g (path.length + 1) t).2 := by
        intro g t ht
        rw [← hlen]
        exact doSingleFuncAt_visited room g (by omega) ht
      let s₁ := s₀.look (C.sinodes f).id1 path.length
      have hs₁ : Visited path False s (s₁.print (.func (C.sinodes f).name)
          (((C.sinodes f).data.map CfgNode.callDepth).getD 0) false path.length) :=
        hlook.print _ _ _ _
      change Visited path (Overruns C maxTabs path f) s (fn.callees.foldl _
        ((s₁.print (.func (C.sinodes f).name)
          (((C.sinodes f).data.map CfgNode.callDepth).getD 0) false path.length).setFuncId
            path.length (C.sinodes f).id1))
      generalize s₁.print (.func (C.sinodes f).name)
        (((C.sinodes f).data.map CfgNode.callDepth).getD 0) false path.length = s₂ at hs₁ ⊢
      have hs₃ : HasPath C (path ++ [f]) (s₂.setFuncId path.length (C.sinodes f).id1) :=
        hs.push (setFuncId_self _ _ _) fun i hi => (setFuncId_lt s₂ _ hi).trans (hs₁.kept i hi)
      have hloop := @printCallees_visited C maxTabs (path ++ [f])
        (((C.sinodes f).data.map CfgNode.callDepth).getD 0) path.length _ _ hsub fn.callees _ hs₃
      refine ⟨fun i hi => ?_, ?_⟩
      · rw [hloop.kept i (by omega), setFuncId_lt s₂ _ hi, hs₁.kept i hi]
      · rw [hloop.indices, setFuncId_indices, hs₁.indices, and_iff_left not_false, and_assoc,
          not_overruns_iff (by omega) hnew hdata]

/-! ## Long paths -/

/-- From `f` on, behind `path`, there are calls to one function with a body more than `func_id` has
    room for, all with different ids and above the level that was asked for. -/
structure LongFrom (C : CfgSrc) (maxTabs : Int) (path : List Nat) (f : Nat) (rest : List Nat) :
    Prop where
  length_eq : path.length + rest.length = CALL_DEPTH_MAX
  calls : List.IsChain (CfgCalls C) (f :: rest)
  body : (C.sinodes ((f :: rest).getLast (List.cons_ne_nil f rest))).data.isSome
  level : rest = [] ∨ maxTabs = 0 ∨ (CALL_DEPTH_MAX : Int) ≤ maxTabs
  nodup : (pathIds C (f :: rest)).Nodup
  apart : ∀ id ∈ pathIds C (f :: rest), id ∉ pathIds C path

theorem Overruns.long (h : Overruns C maxTabs path f) : ∃ rest, LongFrom C maxTabs path f rest := by
  induction h with
  | last hlen hnew hdata =>
    refine ⟨[], by simpa using hlen, List.isChain_singleton _, hdata, Or.inl rfl,
      List.nodup_singleton _, fun id hid => ?_⟩
    rw [List.mem_singleton.mp hid]
    exact hnew
  | @deeper path f g hlen hnew hlevel hcall hg ih =>
    obtain ⟨rest, hrest⟩ := ih
    have hlength := hrest.length_eq
    rw [List.length_append, List.length_singleton] at hlength
    have hapart : ∀ id ∈ pathIds C (g :: rest), id ∉ pathIds C path ∧ id ≠ (C.sinodes f).id1 := by
      intro id hid
      have hout := hrest.apart id hid
      rw [pathIds_concat, List.mem_append, List.mem_singleton, not_or] at hout
      exact hout
    refine ⟨g :: rest, ?_, ?_, ?_, Or.inr ?_, ?_, ?_⟩
    · rw [List.length_cons]
      omega
    · exact List.isChain_cons_cons.mpr ⟨hcall, hrest.calls⟩
    · rw [List.getLast_cons (List.cons_ne_nil g rest)]
      exact hrest.body
    · rcases hrest.level with hnil | hmore
      · rcases hlevel with hzero | hlt
        · exact Or.inl hzero
        · rw [hnil, List.length_nil] at hlength
          exact Or.inr (by omega)
      · exact hmore
    · exact List.nodup_cons.mpr ⟨fun hmem => (hapart _ hmem).2 rfl, hrest.nodup⟩
    · intro id hid
      rcases List.mem_cons.mp hid with rfl | hid
      · exact hnew
      · exact (hapart id hid).1

theorem LongFrom.overruns {rest : List Nat} (h : LongFrom C maxTabs path f rest) :
    Overruns C maxTabs path f := by
  induction rest generalizing path f with
  | nil =>
    refine .last (by simpa using h.length_eq) (h.apart _ List.mem_cons_self) h.body
  | cons g rest ih =>
    obtain ⟨hcall, hcalls⟩ := List.isChain_cons_cons.mp h.calls
    obtain ⟨hout, hnodup⟩ := List.nodup_cons.mp h.nodup
    have hlength := h.length_eq
    rw [List.length_cons] at hlength
    have hlevel := h.level.resolve_left (List.cons_ne_nil g rest)
    refine .deeper (by omega) (h.apart _ List.mem_cons_self) (hlevel.imp_right fun hle => by omega)
      hcall (ih ⟨?_, hcalls, ?_, Or.inr hlevel, hnodup, ?_⟩)
    · rw [List.length_append, List.length_singleton]
      omega
    · have hbody := h.body
      rw [List.getLast_cons (List.cons_ne_nil g rest)] at hbody
      exact hbody
    · intro id hid hmem
      rw [pathIds_concat, List.mem_append, List.mem_singleton] at hmem
      rcases hmem with hmem | rfl
      · exact h.apart id (List.mem_cons_of_mem _ hid) hmem
      · exact hout hid

/-- A path of calls without repetition that has one function with a body more than `func_id` has
    room for. -/
def LongPath (C : CfgSrc) (maxTabs : Int) (root : Nat) : Prop :=
  ∃ rest, LongFrom C maxTabs [] root rest

/-- A function that the command starts at. -/
def IsRoot (C : CfgSrc) (funcid root : Nat) : Prop :=
  if funcid ≠ 0 then C.search funcid = some root ∧ (C.sinodes root).data.isSome
  else root ∈ C.funcGlobal ∧ cfgMatch C root = true

/-- Printing from a root. -/
theorem root_visited (root : Nat) (s : PrintState) :
    Visited [] (LongPath C maxTabs root) s (doSingleFuncAt C maxTabs root 0 s).2 := by
  have hvisit := @doSingleFuncAt_visited C maxTabs _ [] root s rfl
    fun i hi => absurd hi (Nat.not_lt_zero i)
  refine ⟨hvisit.kept, hvisit.indices.trans (and_congr_right fun _ => not_congr ?_)⟩
  exact ⟨fun h => h.long, fun ⟨_, h⟩ => h.overruns⟩

theorem roots_visited : ∀ (roots : List Nat) (s : PrintState),
    Visited [] (∃ root ∈ roots, cfgMatch C root = true ∧ LongPath C maxTabs root) s
      (roots.foldl (fun s fsn =>
        if cfgMatch C fsn then (doSingleFuncAt C maxTabs fsn 0 s).2 else s) s)
  | [], s => Visited.refl (by simp) s
  | root :: roots, s => by
    have hfirst : Visited [] (cfgMatch C root = true ∧ LongPath C maxTabs root) s
        (if cfgMatch C root then (doSingleFuncAt C maxTabs root 0 s).2 else s) := by
      split
      · rename_i hmatch
        have hroot := @root_visited C maxTabs root s
        exact ⟨hroot.kept, hroot.indices.trans (and_congr_right fun _ =>
          not_congr (and_iff_right hmatch).symm)⟩
      · rename_i hmatch
        exact Visited.refl (fun h => hmatch h.1) s
    have hall := hfirst.trans (roots_visited roots _)
    refine ⟨hall.kept, hall.indices.trans (and_congr_right fun _ => not_congr ?_)⟩
    simp [List.mem_cons]

/-- **Every index into `func_id` is below its size exactly when no path of calls without repetition
    from a root of the command is too long for it.**  The command comes back for every call
    graph. -/
theorem printCfg_exact (C : CfgSrc) (maxTabs : Int) (funcid : Nat) (funcId : Nat → Nat) :
    IndicesIn (doCb C maxTabs funcid (.start funcId)).2 ↔
      ∀ root, IsRoot C funcid root → ¬ LongPath C maxTabs root := by
  have hstart : IndicesIn (.start funcId) := fun k hk => by cases hk
  unfold doCb IsRoot
  split
  · unfold doSingleFunc
    cases hroot : C.search funcid with
    | none =>
      refine iff_of_true hstart fun root hr => ?_
      cases hr.1
    | some root =>
      dsimp only
      split
      · rename_i hnone
        refine iff_of_true hstart ?_
        rintro _ ⟨hr, hdata⟩
        cases hr
        rw [Option.isNone_iff_eq_none] at hnone
        simp [hnone] at hdata
      · rename_i hdata
        have hsome : (C.sinodes root).data.isSome :=
          Option.isSome_iff_ne_none.mpr (by simpa using hdata)
        rw [(root_visited root _).indices, and_iff_right hstart]
        constructor
        · rintro h _ ⟨hr, -⟩
          cases hr
          exact h
        · exact fun h => h root ⟨rfl, hsome⟩
  · unfold doAllFunc
    rw [(roots_visited C.funcGlobal _).indices, and_iff_right hstart]
    constructor
    · rintro h root ⟨hroot, hmatch⟩ hlong
      exact h ⟨root, hroot, hmatch, hlong⟩
    · rintro h ⟨root, hroot, hmatch, hlong⟩
      exact h root ⟨hroot, hmatch⟩ hlong

/-- Each function calls the next one, 1024 in all. -/
def longCalls : CfgSrc where
  sinodes f := ⟨f + 1, [], if f ≤ CALL_DEPTH_MAX then some ⟨1, [⟨f + 2, 0, false, []⟩]⟩ else none⟩
  siidType _ := TYPE_FUNC_GLOBAL
  search value := if value ≤ CALL_DEPTH_MAX + 1 then some (value - 1) else none
  funcGlobal := [0]

theorem longCalls_calls {f : Nat} (hf : f + 1 < CALL_DEPTH_MAX + 1) :
    CfgCalls longCalls f (f + 1) := by
  refine ⟨⟨1, [⟨f + 2, 0, false, []⟩]⟩, if_pos (by omega), ⟨f + 2, 0, false, []⟩,
    List.mem_singleton_self _, ?_⟩
  exact if_pos (by omega)

theorem longCalls_body {f : Nat} (hf : f ≤ CALL_DEPTH_MAX) :
    (longCalls.sinodes f).data.isSome := by
  simp only [longCalls, if_pos hf, Option.isSome_some]

theorem longCalls_long : LongPath longCalls 0 0 := by
  have hall : 0 :: List.range' 1 CALL_DEPTH_MAX = List.range' 0 (CALL_DEPTH_MAX + 1) := rfl
  refine ⟨List.range' 1 CALL_DEPTH_MAX, ?_, ?_, ?_, Or.inr (Or.inl rfl), ?_, ?_⟩
  · rw [List.length_nil, List.length_range', Nat.zero_add]
  · rw [hall, List.isChain_iff_getElem]
    intro i hi
    rw [List.length_range'] at hi
    simp only [List.getElem_range', Nat.zero_add, Nat.one_mul]
    exact longCalls_calls hi
  · have hle : ∀ f ∈ 0 :: List.range' 1 CALL_DEPTH_MAX, f ≤ CALL_DEPTH_MAX := by
      intro f hf
      rw [hall, List.mem_range'_1] at hf
      omega
    exact longCalls_body (hle _ (List.getLast_mem _))
  · rw [hall]
    refine (List.nodup_range' (s := 0)).map ?_
    intro i j hij
    exact Nat.succ.inj hij
  · exact fun _ _ => List.not_mem_nil

/-- The last one is written behind the array. -/
theorem longCalls_overrun : ¬ IndicesIn (doCb longCalls 0 1 (.start fun _ => 0)).2 := by
  have hrun : doCb longCalls 0 1 (.start fun _ => 0) =
      doSingleFuncAt longCalls 0 0 0 (.start fun _ => 0) := rfl
  rw [hrun, (root_visited 0 _).indices]
  exact fun h => h.2 longCalls_long

end Srcinv.Hacking
