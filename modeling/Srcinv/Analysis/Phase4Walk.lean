import Mathlib.Data.List.Basic
import Srcinv.Analysis.ObjScan
import Srcinv.Lib.GraphWalk

/-!
# The walks of phase 4 (`__4_mark_gimple`, `__is_obj_checked`, `analysis/gcc/c.cc`)

Phase 4 walks the tree below each operand of each statement of a function, and marks in a table what
it has met.  The table has an entry for each object of the file.  It is cleared before an operand,
but not before an argument of a PHI or its result: there the entries are cleared once for the
statement, and the index is not.

* `doObj_marks` — a walk meets what can be reached and is not marked, or runs out of entries.
* `phase4_exact` — when each operand has a table of its own that is large enough.
* `phis_fill_table` — PHIs whose operands fill the table.
-/

namespace Srcinv.Analysis

open Srcinv.Lib

namespace Phase4

/-! ## The code -/

/-- What goes wrong: an access outside the table, or `BUG_ON`. -/
inductive Fault where
  | overrun
  | bug
  deriving DecidableEq, Repr

/-- `obj_cnt`, and the pointers that the function for an object goes on with, in their order; `0` is
    NULL. -/
structure ObjGraph where
  cnt : Nat
  below : Nat → List Nat

/-- `phase4_obj_checked`, with `obj_cnt` entries, and `phase4_obj_idx`. -/
structure ObjChecked (cnt : Nat) where
  tab : Vector Nat cnt
  idx : Nat

/-- No entry set, and index zero. -/
def ObjChecked.empty (cnt : Nat) : ObjChecked cnt := ⟨Vector.replicate cnt 0, 0⟩

/-- The loops stop at an entry with the address, and at the end of the table. -/
def ObjChecked.stops {cnt : Nat} (c : ObjChecked cnt) (realAddr i : Nat) : Bool :=
  match c.tab[i]? with
  | some addr => addr == realAddr
  | none => true

/-- `__is_obj_checked` in `MODE_GETSTEP4`. -/
def isObjChecked {cnt : Nat} (c : ObjChecked cnt) (realAddr : Nat) (reverse : Bool) :
    Except Fault (Bool × ObjChecked cnt) :=
  match scan (c.stops realAddr) c.idx reverse with
  | some i => if i < cnt then .ok (true, c) else .error .overrun
  | none =>
    if _h : c.idx < cnt then
      if c.idx + 1 ≥ cnt then .error .bug
      else .ok (false, ⟨c.tab.set c.idx realAddr, c.idx + 1⟩)
    else .error .overrun

/-- `do_tree` and the functions it calls, with the objects they went on with so far.  Each call
    below another one has taken an entry, so that `obj_cnt` calls and one have room. -/
def doObj (g : ObjGraph) :
    Nat → Nat → ObjChecked g.cnt × List Nat → Except Fault (ObjChecked g.cnt × List Nat)
  | 0, _, _ => .error .bug
  | room + 1, o, s =>
    if o = 0 then .ok s
    else
      match isObjChecked s.1 o true with
      | .error e => .error e
      | .ok (true, _) => .ok s
      | .ok (false, c) => (g.below o).foldlM (fun s o => doObj g room o s) (c, s.2 ++ [o])

/-- The walk of an operand: the table it starts with, and the objects that it processes. -/
structure OperandWalk (cnt : Nat) where
  op : Nat
  start : ObjChecked cnt
  done : List Nat

/-- The table, and the walks so far. -/
structure MarkState (cnt : Nat) where
  checked : ObjChecked cnt
  walks : List (OperandWalk cnt)

/-- The entries are set to NULL. -/
def MarkState.clear {cnt : Nat} (s : MarkState cnt) : MarkState cnt :=
  { s with checked := ⟨Vector.replicate cnt 0, s.checked.idx⟩ }

/-- `do_tree` from `__4_mark_gimple`. -/
def doTree (g : ObjGraph) (node : Nat) (s : MarkState g.cnt) : Except Fault (MarkState g.cnt) :=
  if node = 0 then .ok s
  else
    (doObj g (g.cnt + 1) node (s.checked, [])).map fun r =>
      ⟨r.1, s.walks ++ [⟨node, s.checked, r.2⟩]⟩

inductive GimpleCode where
  | debug
  | nop
  | label
  | phi
  | other
  deriving DecidableEq, Repr

/-- A statement; the arguments and the result are those of a PHI. -/
structure Gimple where
  code : GimpleCode
  ops : List Nat
  phiArgs : List Nat
  phiResult : Nat

/-- The body of the first loop. -/
def markOp (g : ObjGraph) (op : Nat) (s : MarkState g.cnt) : Except Fault (MarkState g.cnt) :=
  if op = 0 then .ok s else doTree g op { s with checked := ObjChecked.empty g.cnt }

/-- `__4_mark_gimple`. -/
def markGimple (g : ObjGraph) (gs : Gimple) (s : MarkState g.cnt) :
    Except Fault (MarkState g.cnt) :=
  if gs.code = .debug ∨ gs.code = .nop ∨ gs.code = .label then .ok s
  else do
    let s ← gs.ops.foldlM (fun s op => markOp g op s) s.clear
    if gs.code = .phi then
      let s ← gs.phiArgs.foldlM (fun s arg => doTree g arg s) s
      doTree g gs.phiResult s
    else .ok s

/-- `bb->il.gimple`. -/
structure BasicBlock where
  phiNodes : List Gimple
  seq : List Gimple

/-- The body of `FOR_EACH_BB_FN`. -/
def markBlock (g : ObjGraph) (bb : BasicBlock) (s : MarkState g.cnt) :
    Except Fault (MarkState g.cnt) := do
  let s ← bb.phiNodes.foldlM (fun s gs => markGimple g gs s) s
  bb.seq.foldlM (fun s gs => markGimple g gs s) s

/-- `__4_mark_var_func`. -/
def markVarFunc (g : ObjGraph) (body : List BasicBlock) (s : MarkState g.cnt) :
    Except Fault (MarkState g.cnt) :=
  body.foldlM (fun s bb => markBlock g bb s) s

/-! ## The table during a walk -/

def nonNull (os : List Nat) : List Nat := os.filter fun o => o ≠ 0

/-- The objects that an object leads to. -/
def next (g : ObjGraph) (o : Nat) : List Nat := nonNull (g.below o)

theorem nonNull_cons (o : Nat) (os : List Nat) : nonNull (o :: os) = nonNull [o] ++ nonNull os :=
  List.filter_append [o] os

theorem nonNull_of_ne {o : Nat} (ho : o ≠ 0) : nonNull [o] = [o] :=
  List.filter_cons_of_pos (decide_eq_true ho)

/-- The table has the objects processed so far, in their order. -/
structure Holds {cnt : Nat} (c : ObjChecked cnt) (done : List Nat) : Prop where
  idx : c.idx = done.length
  room : c.idx = 0 ∨ c.idx < cnt
  entries : ∀ i, i < c.idx → c.tab[i]? = done[i]?

theorem Holds.empty (cnt : Nat) : Holds (ObjChecked.empty cnt) [] :=
  ⟨rfl, Or.inl rfl, fun _ hi => absurd hi (Nat.not_lt_zero _)⟩

section Table

variable {cnt : Nat} {c : ObjChecked cnt} {done : List Nat} {o : Nat}

/-- The loops stop where the object is. -/
theorem Holds.stops_iff (h : Holds c done) {i : Nat} (hi : i < c.idx) :
    c.stops o i = true ↔ done[i]? = some o := by
  have hlt : i < done.length := h.idx ▸ hi
  unfold ObjChecked.stops
  rw [h.entries i hi, List.getElem?_eq_getElem hlt]
  simp only [beq_iff_eq, Option.some.injEq]

theorem Holds.marked (h : Holds c done) (ho : o ∈ done) :
    isObjChecked c o true = .ok (true, c) := by
  unfold isObjChecked
  cases hscan : scan (c.stops o) c.idx true with
  | none =>
    obtain ⟨i, hi, hget⟩ := List.mem_iff_getElem.mp ho
    have hidx : i < c.idx := h.idx ▸ hi
    have hstop := (h.stops_iff hidx).mpr (List.getElem?_eq_some_iff.mpr ⟨hi, hget⟩)
    rw [scan_none.mp hscan i hidx] at hstop
    cases hstop
  | some i =>
    have hi := (scan_some hscan).2
    have hroom := h.room
    exact if_pos (by omega)

/-- The loops go through all entries for an object that was not met. -/
theorem Holds.scan_none (h : Holds c done) (ho : o ∉ done) :
    scan (c.stops o) c.idx true = none := by
  refine Analysis.scan_none.mpr fun i hi => ?_
  rw [← Bool.not_eq_true, h.stops_iff hi]
  exact fun hget => ho (List.mem_of_getElem? hget)

theorem Holds.take (h : Holds c done) (ho : o ∉ done) (hroom : c.idx + 1 < cnt) :
    ∃ c', isObjChecked c o true = .ok (false, c') ∧ Holds c' (done ++ [o]) := by
  have hlt : c.idx < cnt := by omega
  refine ⟨⟨c.tab.set c.idx o, c.idx + 1⟩, ?_, ?_, Or.inr hroom, fun i hi => ?_⟩
  · unfold isObjChecked
    rw [h.scan_none ho]
    simp only [dif_pos hlt, if_neg (Nat.not_le.mpr hroom)]
  · rw [List.length_append, List.length_singleton, ← h.idx]
  · rw [Vector.getElem?_set hlt]
    split
    · rename_i heq
      rw [← heq, h.idx, List.getElem?_concat_length]
    · have hi' : i < c.idx := by
        simp only at hi
        omega
      rw [h.entries i hi', List.getElem?_append_left (h.idx ▸ hi')]

theorem Holds.full (h : Holds c done) (ho : o ∉ done) (hfull : cnt ≤ c.idx + 1) :
    ∃ e, isObjChecked c o true = .error e := by
  unfold isObjChecked
  rw [h.scan_none ho]
  by_cases hlt : c.idx < cnt
  · exact ⟨.bug, by simp only [dif_pos hlt, if_pos hfull]⟩
  · exact ⟨.overrun, by simp only [dif_neg hlt]⟩

end Table

/-! ## A walk -/

section Walk

variable {g : ObjGraph}

/-- What a walk comes to. -/
def Outcome (g : ObjGraph) (os seen : List Nat) :
    Except Fault (ObjChecked g.cnt × List Nat) → Prop
  | .ok s => Holds s.1 s.2 ∧ Marks (next g) os seen s.2
  | .error _ => Overflows (next g) g.cnt os seen

/-- Calls one after the other, when each of them meets what it should. -/
theorem foldlM_outcome {room : Nat}
    (hsub : ∀ (o : Nat) (c : ObjChecked g.cnt) (done : List Nat), g.cnt < room + c.idx →
      Holds c done → done.Nodup → Outcome g (nonNull [o]) done (doObj g room o (c, done))) :
    ∀ (os : List Nat) (c : ObjChecked g.cnt) (done : List Nat), g.cnt < room + c.idx →
      Holds c done → done.Nodup →
      Outcome g (nonNull os) done (os.foldlM (fun s o => doObj g room o s) (c, done))
  | [], c, done, _, hholds, hnodup => ⟨hholds, .nil hnodup⟩
  | o :: os, c, done, hroom, hholds, hnodup => by
    have hfirst := hsub o c done hroom hholds hnodup
    rw [List.foldlM_cons, nonNull_cons]
    cases hcall : doObj g room o (c, done) with
    | error e =>
      rw [hcall] at hfirst
      exact Overflows.mono (fun _ => List.mem_append_left _) hfirst
    | ok s =>
      rw [hcall] at hfirst
      obtain ⟨hholds', hmarks⟩ := hfirst
      have hgrow : done.length ≤ s.2.length := (hnodup.subperm hmarks.mono).length_le
      have hroom' : g.cnt < room + s.1.idx := by
        rw [hholds'.idx]
        rw [hholds.idx] at hroom
        omega
      have hrest := foldlM_outcome hsub os s.1 s.2 hroom' hholds' hmarks.nodup
      change Outcome g _ done (os.foldlM (fun s o => doObj g room o s) (s.1, s.2))
      cases hfold : os.foldlM (fun s o => doObj g room o s) (s.1, s.2) with
      | error e =>
        rw [hfold] at hrest
        exact Overflows.append hmarks hrest
      | ok s' =>
        rw [hfold] at hrest
        exact ⟨hrest.1, hmarks.append hrest.2⟩

/-- **A walk meets what can be reached and is not in the table, or runs out of entries.** -/
theorem doObj_marks : ∀ (room o : Nat) (c : ObjChecked g.cnt) (done : List Nat),
    0 < room → g.cnt < room + c.idx → Holds c done → done.Nodup →
      Outcome g (nonNull [o]) done (doObj g room o (c, done))
  | 0, _, _, _, hpos, _, _, _ => absurd hpos (Nat.lt_irrefl 0)
  | room + 1, o, c, done, _, hroom, hholds, hnodup => by
    unfold doObj
    by_cases hnull : o = 0
    · rw [if_pos hnull, hnull]
      exact ⟨hholds, .nil hnodup⟩
    · rw [if_neg hnull, nonNull_of_ne hnull]
      by_cases ho : o ∈ done
      · rw [hholds.marked ho]
        exact ⟨hholds, .marked hnodup ho⟩
      · rcases Nat.lt_or_ge (c.idx + 1) g.cnt with hlt | hge
        · obtain ⟨c', hcall, hholds'⟩ := hholds.take ho hlt
          have hnodup' : (done ++ [o]).Nodup :=
            hnodup.append (List.nodup_singleton o) fun a ha ha' =>
              ho (List.mem_singleton.mp ha' ▸ ha)
          have hidx : c'.idx = c.idx + 1 := by
            rw [hholds'.idx, List.length_append, hholds.idx]
            rfl
          -- an entry was taken, so that the calls below have room
          have hpos : 0 < room := by omega
          have hrest := foldlM_outcome (fun o c done => doObj_marks room o c done hpos)
            (g.below o) c' (done ++ [o]) (by omega) hholds' hnodup'
          rw [hcall]
          change Outcome g [o] done
            ((g.below o).foldlM (fun s o => doObj g room o s) (c', done ++ [o]))
          cases hfold : (g.below o).foldlM (fun s o => doObj g room o s) (c', done ++ [o]) with
          | error e =>
            rw [hfold] at hrest
            exact Overflows.enter hrest
          | ok s =>
            rw [hfold] at hrest
            exact ⟨hrest.1, hrest.2.enter⟩
        · obtain ⟨e, hcall⟩ := hholds.full ho hge
          rw [hcall]
          exact .full hnodup ho (by rwa [← hholds.idx])

end Walk

/-! ## The walk of an operand -/

/-- A walk starts with an empty table, and processes each object that it comes to once. -/
structure OperandWalk.Right (g : ObjGraph) (w : OperandWalk g.cnt) : Prop where
  start : w.start = ObjChecked.empty g.cnt
  once : w.done.Nodup
  all : ∀ o, o ∈ w.done ↔ Reaches (next g) w.op o

section Operand

variable {g : ObjGraph} {o : Nat} {s s' : MarkState g.cnt}

/-- A walk starts with the table as it is. -/
theorem doTree_start (ho : o ≠ 0) (h : doTree g o s = .ok s') : ∃ w ∈ s'.walks,
    w.start = s.checked := by
  unfold doTree at h
  rw [if_neg ho] at h
  cases hcall : doObj g (g.cnt + 1) o (s.checked, []) with
  | error e =>
    rw [hcall] at h
    cases h
  | ok r =>
    rw [hcall] at h
    cases h
    exact ⟨_, List.mem_append_right _ (List.mem_singleton_self _), rfl⟩

/-- **With an empty table a walk goes right exactly when it reaches fewer objects than the file
    has.** -/
theorem doTree_empty (ho : o ≠ 0) (hs : s.checked = ObjChecked.empty g.cnt) :
    (ReachesFew (next g) o g.cnt ∧ ∃ w s', doTree g o s = .ok s' ∧ s'.walks = s.walks ++ [w] ∧
      w.Right g ∧ s'.checked.idx ≠ 0) ∨
    (¬ ReachesFew (next g) o g.cnt ∧ ∃ e, doTree g o s = .error e) := by
  have hwalk := doObj_marks (g.cnt + 1) o (ObjChecked.empty g.cnt) [] (Nat.succ_pos _)
    (Nat.lt_succ_self _) (Holds.empty g.cnt) List.nodup_nil
  rw [nonNull_of_ne ho] at hwalk
  unfold doTree
  rw [if_neg ho, hs]
  cases hcall : doObj g (g.cnt + 1) o (ObjChecked.empty g.cnt, []) with
  | error e =>
    rw [hcall] at hwalk
    exact Or.inr ⟨Overflows.not_reachesFew hwalk, e, rfl⟩
  | ok r =>
    rw [hcall] at hwalk
    obtain ⟨hholds, hmarks⟩ := hwalk
    have hmem : o ∈ r.2 := hmarks.roots o (List.mem_singleton_self o)
    have hidx : r.1.idx ≠ 0 := by
      rw [hholds.idx]
      exact Nat.ne_of_gt (List.length_pos_of_mem hmem)
    have hfew : r.2.length < g.cnt := hholds.idx ▸ hholds.room.resolve_left hidx
    exact Or.inl ⟨hmarks.reachesFew hfew, _, _, rfl, rfl,
      ⟨rfl, hmarks.nodup, fun _ => hmarks.reached⟩, hidx⟩

end Operand

/-! ## A function as a list of tasks -/

/-- What is done with the table: the entries are cleared, an operand is walked with a cleared table,
    or an argument of a PHI or its result as the table is. -/
inductive Task where
  | clear
  | op (o : Nat)
  | phi (o : Nat)

def Task.run (g : ObjGraph) (s : MarkState g.cnt) : Task → Except Fault (MarkState g.cnt)
  | .clear => .ok s.clear
  | .op o => markOp g o s
  | .phi o => doTree g o s

/-- The operand that a task walks, and whether it is one of a PHI. -/
def Task.operand : Task → Option (Bool × Nat)
  | .clear => none
  | .op o => if o = 0 then none else some (false, o)
  | .phi o => if o = 0 then none else some (true, o)

def gimpleTasks (gs : Gimple) : List Task :=
  if gs.code = .debug ∨ gs.code = .nop ∨ gs.code = .label then []
  else .clear :: (gs.ops.map .op ++
    if gs.code = .phi then (gs.phiArgs ++ [gs.phiResult]).map .phi else [])

def bodyTasks (body : List BasicBlock) : List Task :=
  body.flatMap fun bb => (bb.phiNodes ++ bb.seq).flatMap gimpleTasks

/-- The operands that are walked. -/
def operands (ts : List Task) : List (Bool × Nat) := ts.filterMap Task.operand

section Tasks

variable {g : ObjGraph} {s : MarkState g.cnt}

theorem foldlM_flatMap {α β : Type} {f : α → List β}
    {step : MarkState g.cnt → β → Except Fault (MarkState g.cnt)} : ∀ (l : List α)
    (s : MarkState g.cnt),
      (l.flatMap f).foldlM step s = l.foldlM (fun s x => (f x).foldlM step s) s
  | [], s => rfl
  | x :: l, s => by
    rw [List.flatMap_cons, List.foldlM_append, List.foldlM_cons]
    exact congrArg _ (funext fun s => foldlM_flatMap l s)

theorem markGimple_eq (gs : Gimple) (s : MarkState g.cnt) :
    markGimple g gs s = (gimpleTasks gs).foldlM (Task.run g) s := by
  unfold markGimple gimpleTasks
  split
  · rfl
  · rw [List.foldlM_cons]
    change _ = ((gs.ops.map Task.op ++ _).foldlM (Task.run g) s.clear)
    rw [List.foldlM_append, List.foldlM_map]
    refine congrArg _ (funext fun s => ?_)
    split
    · rw [List.map_append, List.foldlM_append, List.foldlM_map]
      refine congrArg _ (funext fun s => ?_)
      exact (bind_pure _).symm
    · rfl

theorem markVarFunc_eq (body : List BasicBlock) (s : MarkState g.cnt) :
    markVarFunc g body s = (bodyTasks body).foldlM (Task.run g) s := by
  unfold markVarFunc bodyTasks
  rw [foldlM_flatMap]
  congr 1
  funext s bb
  unfold markBlock
  rw [foldlM_flatMap, List.foldlM_append]
  simp only [markGimple_eq]

end Tasks

/-! ## When all walks go right -/

/-- The tasks are done without a fault, and all walks so far are right. -/
def RunsRight (g : ObjGraph) (ts : List Task) (s : MarkState g.cnt) : Prop :=
  ∃ s', ts.foldlM (Task.run g) s = .ok s' ∧ ∀ w ∈ s'.walks, w.Right g

/-- **The table of phase 4 is right for a function**, whatever it has before. -/
def Phase4Right (g : ObjGraph) (body : List BasicBlock) (c : ObjChecked g.cnt) : Prop :=
  ∃ s, markVarFunc g body ⟨c, []⟩ = .ok s ∧ ∀ w ∈ s.walks, w.Right g

/-- **The condition**: an argument of a PHI or its result is walked only as the first operand of the
    function, with the index zero before it, and each operand reaches fewer objects than the file
    has. -/
structure Phase4Met (g : ObjGraph) (body : List BasicBlock) (c : ObjChecked g.cnt) : Prop where
  phi : ∀ i o, (operands (bodyTasks body))[i]? = some (true, o) → i = 0 ∧ c.idx = 0
  few : ∀ x ∈ operands (bodyTasks body), ReachesFew (next g) x.2 g.cnt

section Runs

variable {g : ObjGraph} {t : Task} {ts : List Task} {s s' : MarkState g.cnt}

theorem runsRight_cons (h : t.run g s = .ok s') : RunsRight g (t :: ts) s ↔ RunsRight g ts s' := by
  unfold RunsRight
  rw [List.foldlM_cons, h]
  rfl

theorem not_runsRight_cons {e : Fault} (h : t.run g s = .error e) : ¬ RunsRight g (t :: ts) s := by
  rintro ⟨s', hrun, -⟩
  rw [List.foldlM_cons, h] at hrun
  cases hrun

/-- A task leaves the walks before it. -/
theorem run_walks (h : t.run g s = .ok s') : ∀ w ∈ s.walks, w ∈ s'.walks := by
  have htree : ∀ (o : Nat) (c : ObjChecked g.cnt), doTree g o ⟨c, s.walks⟩ = .ok s' →
      ∀ w ∈ s.walks, w ∈ s'.walks := by
    intro o c hcall
    unfold doTree at hcall
    split at hcall
    · cases hcall
      exact fun _ hw => hw
    · cases hdo : doObj g (g.cnt + 1) o (c, []) with
      | error e =>
        rw [hdo] at hcall
        cases hcall
      | ok r =>
        rw [hdo] at hcall
        cases hcall
        exact fun _ hw => List.mem_append_left _ hw
  cases t with
  | clear =>
    cases h
    exact fun _ hw => hw
  | op o =>
    change markOp g o s = .ok s' at h
    unfold markOp at h
    split at h
    · cases h
      exact fun _ hw => hw
    · exact htree o _ h
  | phi o => exact htree o s.checked h

theorem RunsRight.walks : ∀ {ts : List Task} {s : MarkState g.cnt}, RunsRight g ts s →
    ∀ w ∈ s.walks, w.Right g
  | [], _, ⟨_, hrun, hright⟩ => by
    cases hrun
    exact hright
  | t :: ts, s, h => by
    cases hrun : t.run g s with
    | error e => exact absurd h (not_runsRight_cons hrun)
    | ok s' =>
      have hrest := ((runsRight_cons hrun).mp h).walks
      exact fun w hw => hrest w (run_walks hrun w hw)

/-- A walk that starts with an empty table, before tasks that go right exactly under `P` once the
    index is not zero. -/
theorem runsRight_empty {o : Nat} (ho : o ≠ 0) {c : ObjChecked g.cnt}
    (hrun : t.run g s = doTree g o ⟨c, s.walks⟩) (hc : c = ObjChecked.empty g.cnt)
    (hs : ∀ w ∈ s.walks, w.Right g) {P : Prop}
    (hrest : ∀ s' : MarkState g.cnt, s'.checked.idx ≠ 0 → (∀ w ∈ s'.walks, w.Right g) →
      (RunsRight g ts s' ↔ P)) :
    RunsRight g (t :: ts) s ↔ ReachesFew (next g) o g.cnt ∧ P := by
  rcases doTree_empty (s := ⟨c, s.walks⟩) ho hc with
    ⟨hfew, w, s', hcall, hwalks, hright, hidx⟩ | ⟨hmany, e, hcall⟩
  · have hs' : ∀ w ∈ s'.walks, w.Right g := by
      intro v hv
      rw [hwalks] at hv
      rcases List.mem_append.mp hv with hv | hv
      · exact hs v hv
      · rw [List.mem_singleton.mp hv]
        exact hright
    rw [runsRight_cons (hrun.trans hcall), hrest s' hidx hs']
    exact ⟨fun h => ⟨hfew, h⟩, And.right⟩
  · exact ⟨fun h => absurd h (not_runsRight_cons (hrun.trans hcall)), fun h => absurd h.1 hmany⟩

/-- A task without an operand leaves what the next ones meet. -/
theorem runsRight_null {o : Nat} (ho : o = 0) (ht : t = .op o ∨ t = .phi o) :
    (RunsRight g (t :: ts) s ↔ RunsRight g ts s) ∧ operands (t :: ts) = operands ts := by
  rcases ht with rfl | rfl
  · exact ⟨runsRight_cons (t := Task.op o) (if_pos ho), by simp [operands, Task.operand, ho]⟩
  · exact ⟨runsRight_cons (t := Task.phi o) (if_pos ho), by simp [operands, Task.operand, ho]⟩

theorem operands_op {o : Nat} (ho : o ≠ 0) :
    operands (.op o :: ts) = (false, o) :: operands ts := by
  simp [operands, Task.operand, ho]

theorem operands_phi {o : Nat} (ho : o ≠ 0) :
    operands (.phi o :: ts) = (true, o) :: operands ts := by
  simp [operands, Task.operand, ho]

/-- Once the index is not zero, no argument of a PHI and no result can be walked. -/
theorem runsRight_of_idx : ∀ (ts : List Task) {s : MarkState g.cnt}, s.checked.idx ≠ 0 →
    (∀ w ∈ s.walks, w.Right g) →
      (RunsRight g ts s ↔ ∀ x ∈ operands ts, x.1 = false ∧ ReachesFew (next g) x.2 g.cnt)
  | [], s, _, hs => ⟨fun _ _ hx => (by cases hx), fun _ => ⟨s, rfl, hs⟩⟩
  | .clear :: ts, s, hidx, hs => by
    rw [runsRight_cons (t := Task.clear) rfl]
    exact runsRight_of_idx ts (s := s.clear) hidx hs
  | .op o :: ts, s, hidx, hs => by
    by_cases ho : o = 0
    · obtain ⟨hskip, hops⟩ := @runsRight_null g _ ts s o ho (Or.inl rfl)
      rw [hskip, hops]
      exact runsRight_of_idx ts hidx hs
    · rw [operands_op ho, List.forall_mem_cons]
      have hstep := runsRight_empty (t := Task.op o) ho (if_neg ho) rfl hs fun s' =>
        runsRight_of_idx ts (s := s')
      rw [hstep]
      simp only [true_and]
  | .phi o :: ts, s, hidx, hs => by
    by_cases ho : o = 0
    · obtain ⟨hskip, hops⟩ := @runsRight_null g _ ts s o ho (Or.inr rfl)
      rw [hskip, hops]
      exact runsRight_of_idx ts hidx hs
    · rw [operands_phi ho, List.forall_mem_cons]
      constructor
      · intro h
        cases hrun : (Task.phi o).run g s with
        | error e => exact absurd h (not_runsRight_cons hrun)
        | ok s' =>
          obtain ⟨w, hw, hstart⟩ := doTree_start ho hrun
          have hright := ((runsRight_cons hrun).mp h).walks w hw
          exact absurd (congrArg ObjChecked.idx (hstart ▸ hright.start)) hidx
      · rintro ⟨⟨hphi, -⟩, -⟩
        cases hphi

/-- What is of a PHI is only the first operand. -/
theorem phi_first_iff {x : Bool × Nat} {l : List (Bool × Nat)} :
    (∀ i o, (x :: l)[i]? = some (true, o) → i = 0) ↔ ∀ y ∈ l, y.1 = false := by
  constructor
  · intro h y hy
    obtain ⟨i, hget⟩ := List.mem_iff_getElem?.mp hy
    refine Bool.eq_false_iff.mpr fun hphi => ?_
    have hsome : (x :: l)[i + 1]? = some (true, y.2) := by
      rw [List.getElem?_cons_succ, hget, ← hphi]
    exact absurd (h (i + 1) y.2 hsome) (Nat.succ_ne_zero i)
  · intro h i o hget
    cases i with
    | zero => rfl
    | succ i => exact absurd (h _ (List.mem_of_getElem? hget)) (by simp)

/-- The condition on the operands, from the first one on. -/
theorem first_operand_iff {o : Nat} {b : Bool} {l : List (Bool × Nat)} :
    (ReachesFew (next g) o g.cnt ∧ ∀ x ∈ l, x.1 = false ∧ ReachesFew (next g) x.2 g.cnt) ↔
      (∀ i o', ((b, o) :: l)[i]? = some (true, o') → i = 0) ∧
        ∀ x ∈ (b, o) :: l, ReachesFew (next g) x.2 g.cnt := by
  rw [phi_first_iff, List.forall_mem_cons]
  constructor
  · exact fun ⟨hfew, hl⟩ => ⟨fun y hy => (hl y hy).1, hfew, fun y hy => (hl y hy).2⟩
  · exact fun ⟨hphi, hfew, hl⟩ => ⟨hfew, fun y hy => ⟨hphi y hy, hl y hy⟩⟩

/-- With an empty table the first operand may be of any kind, and the others may not be of a PHI. -/
theorem runsRight_of_empty : ∀ (ts : List Task) {s : MarkState g.cnt},
    s.checked = ObjChecked.empty g.cnt → (∀ w ∈ s.walks, w.Right g) →
      (RunsRight g ts s ↔ (∀ i o, (operands ts)[i]? = some (true, o) → i = 0) ∧
        ∀ x ∈ operands ts, ReachesFew (next g) x.2 g.cnt)
  | [], s, _, hs => ⟨fun _ => ⟨fun _ _ h => (by cases h), fun _ hx => (by cases hx)⟩,
      fun _ => ⟨s, rfl, hs⟩⟩
  | .clear :: ts, s, hempty, hs => by
    have hclear : s.clear.checked = ObjChecked.empty g.cnt :=
      congrArg (ObjChecked.mk _) (congrArg ObjChecked.idx hempty)
    rw [runsRight_cons (t := Task.clear) rfl]
    exact runsRight_of_empty ts hclear hs
  | .op o :: ts, s, hempty, hs => by
    by_cases ho : o = 0
    · obtain ⟨hskip, hops⟩ := @runsRight_null g _ ts s o ho (Or.inl rfl)
      rw [hskip, hops]
      exact runsRight_of_empty ts hempty hs
    · rw [operands_op ho]
      have hstep := runsRight_empty (t := Task.op o) ho (if_neg ho) rfl hs fun s' =>
        runsRight_of_idx ts (s := s')
      rw [hstep]
      exact first_operand_iff
  | .phi o :: ts, s, hempty, hs => by
    by_cases ho : o = 0
    · obtain ⟨hskip, hops⟩ := @runsRight_null g _ ts s o ho (Or.inr rfl)
      rw [hskip, hops]
      exact runsRight_of_empty ts hempty hs
    · rw [operands_phi ho]
      have hstep := runsRight_empty (t := Task.phi o) ho rfl hempty hs fun s' =>
        runsRight_of_idx ts (s := s')
      rw [hstep]
      exact first_operand_iff

/-- A statement starts with clearing the entries. -/
theorem gimpleTasks_head (gs : Gimple) :
    gimpleTasks gs = [] ∨ ∃ ts, gimpleTasks gs = .clear :: ts := by
  unfold gimpleTasks
  split
  · exact Or.inl rfl
  · exact Or.inr ⟨_, rfl⟩

theorem flatMap_head {α : Type} {f : α → List Task}
    (hf : ∀ x, f x = [] ∨ ∃ ts, f x = .clear :: ts) : ∀ l : List α,
    l.flatMap f = [] ∨ ∃ ts, l.flatMap f = .clear :: ts
  | [] => Or.inl rfl
  | x :: l => by
    rw [List.flatMap_cons]
    rcases hf x with hx | ⟨ts, hx⟩
    · rw [hx, List.nil_append]
      exact flatMap_head hf l
    · exact Or.inr ⟨ts ++ l.flatMap f, by rw [hx, List.cons_append]⟩

theorem bodyTasks_head (body : List BasicBlock) :
    bodyTasks body = [] ∨ ∃ ts, bodyTasks body = .clear :: ts :=
  flatMap_head (fun bb => flatMap_head gimpleTasks_head (bb.phiNodes ++ bb.seq)) body

end Runs

/-- **The table is right for a function exactly under the condition.** -/
theorem phase4_exact (g : ObjGraph) (body : List BasicBlock) (c : ObjChecked g.cnt) :
    Phase4Right g body c ↔ Phase4Met g body c := by
  have hnone : ∀ w ∈ (⟨c, []⟩ : MarkState g.cnt).walks, w.Right g := fun _ hw => (by cases hw)
  have hright : Phase4Right g body c ↔ RunsRight g (bodyTasks body) ⟨c, []⟩ := by
    unfold Phase4Right RunsRight
    rw [markVarFunc_eq]
  rw [hright]
  rcases bodyTasks_head body with htasks | ⟨ts, htasks⟩
  · rw [htasks]
    refine ⟨fun _ => ⟨?_, ?_⟩, fun _ => ⟨⟨c, []⟩, rfl, hnone⟩⟩
    · rw [htasks]
      exact fun i o h => (by cases h)
    · rw [htasks]
      exact fun _ hx => (by cases hx)
  · have hops : operands (bodyTasks body) = operands ts := by rw [htasks]; rfl
    rw [htasks, runsRight_cons (t := Task.clear) rfl]
    by_cases hidx : c.idx = 0
    · have hclear : (MarkState.clear ⟨c, []⟩).checked = ObjChecked.empty g.cnt :=
        congrArg (ObjChecked.mk _) hidx
      rw [runsRight_of_empty ts hclear hnone]
      constructor
      · exact fun ⟨hphi, hfew⟩ => ⟨fun i o h => ⟨hphi i o (hops ▸ h), hidx⟩, hops ▸ hfew⟩
      · exact fun h => ⟨fun i o hget => (h.phi i o (hops.symm ▸ hget)).1, hops ▸ h.few⟩
    · rw [runsRight_of_idx ts (s := MarkState.clear ⟨c, []⟩) hidx hnone]
      constructor
      · intro h
        refine ⟨fun i o hget => ?_, fun x hx => (h x (hops ▸ hx)).2⟩
        rw [hops] at hget
        exact absurd (h _ (List.mem_of_getElem? hget)).1 (by simp)
      · intro h x hx
        refine ⟨Bool.eq_false_iff.mpr fun hphi => ?_, h.few x (hops.symm ▸ hx)⟩
        obtain ⟨i, hget⟩ := List.mem_iff_getElem?.mp hx
        refine hidx (h.phi i x.2 ?_).2
        rw [hops, hget, ← hphi]

/-! ## The bound on what is reached -/

/-- The walk of an operand never enters a statement: in a file whose objects are apart and have the
    statement among them, it reaches fewer objects than the file has. -/
theorem reachesFew_of_statement {g : ObjGraph} {objs : List Nat} {stmt o : Nat}
    (hcnt : objs.length = g.cnt) (hobjs : ∀ a, Reaches (next g) o a → a ∈ objs)
    (hstmt : stmt ∈ objs) (ho : stmt ≠ o) (hbelow : ∀ a, stmt ∉ g.below a) :
    ReachesFew (next g) o g.cnt := by
  rw [← hcnt]
  refine reachesFew_of_missing hobjs hstmt fun hreach => ?_
  rcases Relation.ReflTransGen.cases_tail hreach with h | ⟨a, -, h⟩
  · exact ho h
  · exact hbelow a (List.mem_of_mem_filter h)

/-! ## PHIs that fill the table -/

/-- Eight objects, without pointers between them. -/
def flatGraph : ObjGraph := ⟨8, fun _ => []⟩

/-- A block that starts with three PHIs, each of the same two arguments. -/
def phiBody : List BasicBlock :=
  [⟨List.replicate 3 ⟨.phi, [], [1, 2], 3⟩, []⟩]

/-- **PHIs fill the table.**  Each of them takes three entries more, although each operand is one
    object. -/
theorem phis_fill_table :
    markVarFunc flatGraph phiBody ⟨ObjChecked.empty 8, []⟩ = .error .bug ∧
      ¬ Phase4Right flatGraph phiBody (ObjChecked.empty 8) := by
  have hbug : markVarFunc flatGraph phiBody ⟨ObjChecked.empty 8, []⟩ = .error .bug := by rfl
  refine ⟨hbug, ?_⟩
  rintro ⟨s, hrun, -⟩
  have hsame := hbug.symm.trans hrun
  cases hsame

end Phase4

end Srcinv.Analysis
