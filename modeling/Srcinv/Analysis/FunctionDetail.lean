import Srcinv.Lib.Run
import Mathlib.Data.List.Perm.Subperm
import Mathlib.Data.List.Nodup

/-!
# The code paths of a function (`analysis/gcc/c.cc`)

`get_function_detail` goes twice over the basic blocks of a function: first it makes a `code_path`
for each block and counts blocks and edges, then it connects the code paths by the edges out of the
blocks, whose destination it looks up in the `preds` of all blocks.  Types, attributes and
parameters are handled before.  A failed `BUG_ON` or an access beyond an array is `none`.

* `getFunctionDetail` — both walks.
* `FunctionBody.Consistent` — what GCC has checked.
* `getFunctionDetail_built` — the code paths of a consistent body are the graph of its blocks.
-/

namespace Srcinv.Analysis

open Srcinv.Lib

/-! ## Bodies -/

/-- `gimple_code` of a statement. -/
inductive GimpleCode where
  | cond
  | debug
  | nop
  | other
  deriving DecidableEq, Repr

/-- `edge_def`, with `EDGE_TRUE_VALUE` and `EDGE_FALSE_VALUE`. -/
structure EdgeDef where
  src : Nat
  dest : Nat
  trueValue : Bool
  falseValue : Bool
  deriving DecidableEq, Repr

/-- `basic_block_def`: the edges in and out, if there are vectors, and the statements. -/
structure BlockDef where
  preds : Option (List Nat)
  succs : Option (List Nat)
  seq : List GimpleCode
  deriving DecidableEq, Repr

/-- `control_flow_graph`: `blocks` is the entry block and those after it by `next_bb`. -/
structure FunctionBody where
  blocks : List Nat
  block : Nat → BlockDef
  edge : Nat → EdgeDef
  nBasicBlocks : Nat
  nEdges : Nat

namespace FunctionBody

variable (f : FunctionBody)

def preds (b : Nat) : List Nat := (f.block b).preds.getD []

def succs (b : Nat) : List Nat := (f.block b).succs.getD []

end FunctionBody

/-! ## Code paths -/

/-- An entry of `next`; the memory behind `next[2]` is not set by `code_path_new`. -/
inductive NextCp where
  | null
  | unset
  | path (i : Nat)
  deriving DecidableEq, Repr

/-- `code_path`: `condHead` is the number of a statement, a path its number in `cps`. -/
structure CodePath where
  cp : Option Nat
  condHead : Option Nat
  branches : Nat
  next : List NextCp
  deriving DecidableEq, Repr

/-- `code_path_new`. -/
def codePathNew (extraBranches : Nat) : CodePath where
  cp := none
  condHead := none
  branches := 2 + extraBranches
  next := [.null, .null] ++ List.replicate extraBranches .unset

/-- The loop over the statements of a block. -/
def condHead : List GimpleCode → Nat → Option (Option Nat)
  | [], _ => some none
  | gs :: rest, i =>
    if gs = .debug ∨ gs = .nop then condHead rest (i + 1)
    else if rest = [] ∧ gs = .cond then some (some i)
    else if gs = .cond then none
    else condHead rest (i + 1)

/-- An edge is looked for up to `bound`, and added if the search stops at `edge_cur`. -/
def recordEdge (edgeCnt bound : Nat) (edges : List Nat) (e : Nat) : Option (List Nat) :=
  let j := if e ∈ edges then edges.idxOf e else bound
  if j = edges.length then
    if edgeCnt ≤ edges.length then none else some (edges ++ [e])
  else some edges

/-- `bbs`, `edges` and `cps`. -/
structure CfgRecord where
  bbs : List Nat
  edges : List Nat
  cps : List CodePath
  deriving DecidableEq, Repr

/-- One block of the first walk.  The edges out of it are looked for in all of `edges`. -/
def recordBlock (f : FunctionBody) (w : CfgRecord) (b : Nat) : Option CfgRecord :=
  if b ∈ w.bbs ∨ f.nBasicBlocks ≤ w.bbs.length then none
  else do
    let edges ← (f.preds b).foldlM (fun es e => recordEdge f.nEdges es.length es e) w.edges
    let edges ← (f.succs b).foldlM (recordEdge f.nEdges f.nEdges) edges
    let head ← condHead (f.block b).seq 0
    let cp := { codePathNew ((f.succs b).length - 2) with cp := some b, condHead := head }
    some ⟨w.bbs ++ [b], edges, w.cps ++ [cp]⟩

/-- The search for an edge in the `preds` of the block `k`. -/
def scanPreds (t k : Nat) : List Nat → Option Nat → Option (Option Nat)
  | [], res => some res
  | e :: es, res =>
    if e ≠ t then scanPreds t k es res
    else if res.isSome then none
    else scanPreds t k es (some k)

/-- The search in the blocks from number `k` on. -/
def scanBlocks (f : FunctionBody) (t : Nat) : List Nat → Nat → Option Nat → Option (Option Nat)
  | [], _, res => some res
  | b :: bs, k, res => (scanPreds t k (f.preds b) res).bind (scanBlocks f t bs (k + 1))

/-- The number of the block that an edge goes to. -/
def findDest (f : FunctionBody) (bbs : List Nat) (t : Nat) : Option Nat :=
  (scanBlocks f t bbs 0 none).join

/-- `next[j] = cps[res[j]]` from `j` on. -/
def setNext : List Nat → Nat → List NextCp → Option (List NextCp)
  | [], _, next => some next
  | r :: rs, j, next =>
    if j < next.length then setNext rs (j + 1) (next.set j (.path r)) else none

/-- `next` of a block with the edges `addr`, which go to the blocks `res`. -/
def nextOf (f : FunctionBody) (cp : CodePath) (addr res : List Nat) : Option (List NextCp) :=
  if cp.condHead.isSome then
    match addr, res with
    | e₀ :: e₁ :: _, r₀ :: r₁ :: _ =>
      if (f.edge e₀).trueValue then
        if (f.edge e₁).falseValue then some ((cp.next.set 1 (.path r₀)).set 0 (.path r₁)) else none
      else if (f.edge e₀).falseValue ∧ (f.edge e₁).trueValue then
        some ((cp.next.set 0 (.path r₀)).set 1 (.path r₁))
      else none
    | _, _ => none
  else setNext res 0 cp.next

/-- One block of the second walk. -/
def connectBlock (f : FunctionBody) (bbs : List Nat) (cps : List CodePath) (i : Nat) :
    Option (List CodePath) := do
  let b ← bbs[i]?
  match (f.block b).succs with
  | none => some cps
  | some addr => do
    let res ← addr.mapM (findDest f bbs)
    let cp ← cps[i]?
    let next ← nextOf f cp addr res
    some (cps.set i { cp with next := next })

/-- `get_function_detail`, the part on the control flow graph: `cps`. -/
def getFunctionDetail (f : FunctionBody) : Option (List CodePath) := do
  let w ← f.blocks.foldlM (recordBlock f) ⟨[], [], []⟩
  if w.bbs.length ≠ f.nBasicBlocks ∨ w.edges.length ≠ f.nEdges then none
  else (List.range f.nBasicBlocks).foldlM (connectBlock f w.bbs) w.cps

/-! ## Consistent bodies -/

namespace FunctionBody

variable (f : FunctionBody)

/-- The last statement of a block is a condition. -/
def EndsInCond (b : Nat) : Prop := (f.block b).seq.getLast? = some .cond

/-- **What GCC has checked.**  Each edge stands once in the `succs` of its source and once in the
    `preds` of its destination, the counts match, and a condition ends a block with exactly one true
    and one false edge. -/
structure Consistent : Prop where
  blocks_nodup : f.blocks.Nodup
  blocks_count : f.nBasicBlocks = f.blocks.length
  edges_count : f.nEdges = (f.blocks.flatMap f.succs).length
  succ_edge : ∀ b ∈ f.blocks, ∀ e ∈ f.succs b, (f.edge e).src = b ∧ (f.edge e).dest ∈ f.blocks ∧
    (f.preds (f.edge e).dest).count e = 1
  pred_edge : ∀ b ∈ f.blocks, ∀ e ∈ f.preds b, (f.edge e).dest = b ∧ (f.edge e).src ∈ f.blocks ∧
    (f.succs (f.edge e).src).count e = 1
  cond_last : ∀ b ∈ f.blocks, ∀ i, (f.block b).seq[i]? = some .cond →
    i + 1 = (f.block b).seq.length
  cond_succs : ∀ b ∈ f.blocks, f.EndsInCond b → ∃ t e, (f.succs b = [t, e] ∨ f.succs b = [e, t]) ∧
    (f.edge t).trueValue = true ∧ (f.edge t).falseValue = false ∧
    (f.edge e).trueValue = false ∧ (f.edge e).falseValue = true

/-- The code path of the block that an edge goes to. -/
def pathTo (e : Nat) : NextCp := .path (f.blocks.idxOf (f.edge e).dest)

/-- The code path of a block: `next` are those of the successors in the order of the edges; of a
    condition, `next[1]` is the true and `next[0]` the false one. -/
structure CodePathOf (b : Nat) (cp : CodePath) : Prop where
  block : cp.cp = some b
  cond : f.EndsInCond b → cp.condHead = some ((f.block b).seq.length - 1) ∧
    ∃ t e, (f.succs b = [t, e] ∨ f.succs b = [e, t]) ∧ (f.edge t).trueValue = true ∧
      (f.edge e).falseValue = true ∧ cp.next = [f.pathTo e, f.pathTo t]
  other : ¬ f.EndsInCond b → cp.condHead = none ∧
    cp.next = (f.succs b).map f.pathTo ++ List.replicate (2 - (f.succs b).length) .null

/-- **The code paths are the graph of the blocks**, one for each block. -/
def Built (cps : List CodePath) : Prop := List.Forall₂ f.CodePathOf f.blocks cps

/-! ## The first walk -/

instance (b : Nat) : Decidable (f.EndsInCond b) := by
  unfold EndsInCond
  infer_instance

/-- The code path of a block after the first walk. -/
def newCp (b : Nat) : CodePath :=
  { codePathNew ((f.succs b).length - 2) with
    cp := some b
    condHead := if f.EndsInCond b then some ((f.block b).seq.length - 1) else none }

/-- All edges. -/
def allEdges : List Nat := f.blocks.flatMap f.succs

variable {f}

theorem Consistent.succ_pred (hf : f.Consistent) {b e : Nat} (hb : b ∈ f.blocks)
    (he : e ∈ f.succs b) : e ∈ f.preds (f.edge e).dest := by
  obtain ⟨-, -, hcount⟩ := hf.succ_edge b hb e he
  exact List.count_pos_iff.mp (by omega)

theorem Consistent.pred_mem (hf : f.Consistent) {b e : Nat} (hb : b ∈ f.blocks)
    (he : e ∈ f.preds b) : e ∈ f.allEdges := by
  obtain ⟨-, hsrc, hcount⟩ := hf.pred_edge b hb e he
  exact List.mem_flatMap.mpr ⟨_, hsrc, List.count_pos_iff.mp (by omega)⟩

/-- No edge stands twice in the `succs` of a body. -/
theorem Consistent.edges_nodup (hf : f.Consistent) : f.allEdges.Nodup := by
  refine List.nodup_flatMap.mpr ⟨fun b hb => ?_, ?_⟩
  · refine List.nodup_iff_count_le_one.mpr fun e => ?_
    by_cases he : e ∈ f.succs b
    · obtain ⟨hsrc, hdest, -⟩ := hf.succ_edge b hb e he
      obtain ⟨-, -, hcount⟩ := hf.pred_edge _ hdest e (hf.succ_pred hb he)
      rw [hsrc] at hcount
      omega
    · rw [List.count_eq_zero.mpr he]
      omega
  · refine hf.blocks_nodup.pairwise_of_forall_ne fun b hb c hc hne => ?_
    intro e heb hec
    obtain ⟨hsrc, -, -⟩ := hf.succ_edge b hb e heb
    obtain ⟨hsrc', -, -⟩ := hf.succ_edge c hc e hec
    exact hne (hsrc.symm.trans hsrc')

/-- An edge that is not recorded fits. -/
theorem Consistent.room (hf : f.Consistent) {edges : List Nat} {e : Nat} (hnd : edges.Nodup)
    (hsub : edges ⊆ f.allEdges) (hmem : e ∈ f.allEdges) (he : e ∉ edges) :
    edges.length < f.nEdges := by
  have hcons : (e :: edges).Nodup := List.nodup_cons.mpr ⟨he, hnd⟩
  have hle := (hcons.subperm (List.cons_subset.mpr ⟨hmem, hsub⟩)).length_le
  rw [hf.edges_count]
  exact hle

end FunctionBody

variable {f : FunctionBody}

theorem condHead_eq {seq : List GimpleCode}
    (hlast : ∀ i, seq[i]? = some .cond → i + 1 = seq.length) (k : Nat) :
    condHead seq k =
      some (if seq.getLast? = some .cond then some (k + (seq.length - 1)) else none) := by
  induction seq generalizing k with
  | nil => rfl
  | cons gs rest ih =>
    have hrest : ∀ i, rest[i]? = some .cond → i + 1 = rest.length := fun i hi => by
      have := hlast (i + 1) (by rw [List.getElem?_cons_succ]; exact hi)
      rw [List.length_cons] at this
      omega
    by_cases hcond : gs = .cond
    · subst hcond
      have hlen := hlast 0 rfl
      rw [List.length_cons] at hlen
      obtain rfl : rest = [] := List.length_eq_zero_iff.mp (by omega)
      rfl
    · have hstep : condHead (gs :: rest) k = condHead rest (k + 1) := by
        rw [condHead]
        by_cases hskip : gs = .debug ∨ gs = .nop
        · rw [if_pos hskip]
        · rw [if_neg hskip, if_neg fun h => hcond h.2, if_neg hcond]
      rw [hstep, ih hrest (k + 1)]
      cases rest with
      | nil =>
        rw [if_neg (by simp), if_neg (by simpa using hcond)]
      | cons gs' rest =>
        rw [List.getLast?_cons_cons]
        have hpos : k + 1 + ((gs' :: rest).length - 1) = k + ((gs :: gs' :: rest).length - 1) := by
          simp only [List.length_cons]
          omega
        rw [hpos]

theorem recordEdge_in {cnt e : Nat} {edges : List Nat} (h : e ∉ edges → edges.length < cnt) :
    recordEdge cnt edges.length edges e = some (if e ∈ edges then edges else edges ++ [e]) := by
  unfold recordEdge
  by_cases he : e ∈ edges
  · have hne : edges.idxOf e ≠ edges.length := Nat.ne_of_lt (List.idxOf_lt_length_iff.mpr he)
    simp only [if_pos he, if_neg hne]
  · have hlt : ¬ cnt ≤ edges.length := Nat.not_le.mpr (h he)
    simp only [if_neg he, if_true, if_neg hlt]

theorem recordEdge_out {cnt e : Nat} {edges : List Nat} (h : e ∉ edges → edges.length < cnt) :
    recordEdge cnt cnt edges e = some edges := by
  unfold recordEdge
  by_cases he : e ∈ edges
  · have hne : edges.idxOf e ≠ edges.length := Nat.ne_of_lt (List.idxOf_lt_length_iff.mpr he)
    simp only [if_pos he, if_neg hne]
  · have hne : cnt ≠ edges.length := Nat.ne_of_gt (h he)
    simp only [if_neg he, if_neg hne]

/-- The state of the first walk after the blocks `done`: the edges into them are recorded. -/
structure RecordInv (f : FunctionBody) (done : List Nat) (w : CfgRecord) : Prop where
  bbs : w.bbs = done
  cps : w.cps = done.map f.newCp
  nodup : w.edges.Nodup
  mem_edges : ∀ e, e ∈ w.edges ↔ ∃ b ∈ done, e ∈ f.preds b

/-- The edges into a block are added. -/
theorem preds_recorded (hf : f.Consistent) {b : Nat} (hb : b ∈ f.blocks) {edges : List Nat}
    (hnd : edges.Nodup) (hsub : edges ⊆ f.allEdges) :
    ∃ edges', (f.preds b).foldlM (fun es e => recordEdge f.nEdges es.length es e) edges =
        some edges' ∧ edges'.Nodup ∧ ∀ e, e ∈ edges' ↔ e ∈ edges ∨ e ∈ f.preds b := by
  refine foldlM_total (I := fun pre (es : List Nat) => es.Nodup ∧ ∀ e, e ∈ es ↔ e ∈ edges ∨ e ∈ pre)
    (f.preds b) ⟨hnd, by simp⟩ fun pre e post hpre es hes => ?_
  obtain ⟨hnd, hmem⟩ := hes
  have hin : ∀ e', e' ∈ pre ++ [e] → e' ∈ f.allEdges := fun e' he' => by
    refine hf.pred_mem hb ?_
    rw [hpre]
    simp only [List.mem_append, List.mem_cons, List.not_mem_nil, or_false] at he' ⊢
    tauto
  have hes : es ⊆ f.allEdges := fun e' he' => by
    obtain hold | hnew := (hmem e').mp he'
    · exact hsub hold
    · exact hin e' (List.mem_append_left _ hnew)
  refine ⟨_, recordEdge_in fun he => hf.room hnd hes (hin e (by simp)) he, ?_⟩
  by_cases he : e ∈ es
  · rw [if_pos he]
    refine ⟨hnd, fun e' => ?_⟩
    rw [hmem e', List.mem_append, List.mem_singleton]
    constructor
    · rintro (h | h)
      · exact Or.inl h
      · exact Or.inr (Or.inl h)
    · rintro (h | h | rfl)
      · exact Or.inl h
      · exact Or.inr h
      · exact (hmem e').mp he
  · rw [if_neg he]
    refine ⟨List.nodup_append.mpr ⟨hnd, List.nodup_singleton e, ?_⟩, fun e' => ?_⟩
    · rintro a ha c hc rfl
      rw [List.mem_singleton] at hc
      exact he (hc ▸ ha)
    · rw [List.mem_append, hmem e', List.mem_append, or_assoc]

/-- The edges out of a block are not added. -/
theorem succs_recorded (hf : f.Consistent) {b : Nat} (hb : b ∈ f.blocks) {edges : List Nat}
    (hnd : edges.Nodup) (hsub : edges ⊆ f.allEdges) :
    (f.succs b).foldlM (recordEdge f.nEdges f.nEdges) edges = some edges := by
  obtain ⟨es, h, rfl⟩ := foldlM_total (f := recordEdge f.nEdges f.nEdges)
    (I := fun _ es => es = edges) (f.succs b) rfl fun pre e post hpre es hes => by
      subst hes
      refine ⟨es, recordEdge_out fun he => hf.room hnd hsub ?_ he, rfl⟩
      refine List.mem_flatMap.mpr ⟨b, hb, ?_⟩
      rw [hpre]
      simp
  exact h

/-- **One block of the first walk.** -/
theorem recordBlock_inv (hf : f.Consistent) {done post : List Nat} {b : Nat}
    (hblocks : f.blocks = done ++ b :: post) {w : CfgRecord} (hi : RecordInv f done w) :
    ∃ w', recordBlock f w b = some w' ∧ RecordInv f (done ++ [b]) w' := by
  have hb : b ∈ f.blocks := by
    rw [hblocks]
    simp
  have hsub : w.edges ⊆ f.allEdges := fun e he => by
    obtain ⟨c, hc, hmem⟩ := (hi.mem_edges e).mp he
    refine hf.pred_mem ?_ hmem
    rw [hblocks]
    exact List.mem_append_left _ hc
  obtain ⟨edges, hpreds, hnd, hmem⟩ := preds_recorded hf hb hi.nodup hsub
  have hsub' : edges ⊆ f.allEdges := fun e he => by
    obtain hold | hnew := (hmem e).mp he
    · exact hsub hold
    · exact hf.pred_mem hb hnew
  have hsuccs := succs_recorded hf hb hnd hsub'
  have hnew : ¬ (b ∈ w.bbs ∨ f.nBasicBlocks ≤ w.bbs.length) := by
    rw [hi.bbs, hf.blocks_count]
    have hdis := hf.blocks_nodup
    rw [hblocks, List.nodup_append] at hdis
    rw [hblocks, List.length_append, List.length_cons]
    rintro (hin | hle)
    · exact hdis.2.2 b hin b List.mem_cons_self rfl
    · omega
  refine ⟨⟨w.bbs ++ [b], edges, w.cps ++ [f.newCp b]⟩, ?_, ?_⟩
  · unfold recordBlock
    rw [if_neg hnew, hpreds]
    simp only [Option.bind_eq_bind, Option.bind_some, hsuccs,
      condHead_eq (hf.cond_last b hb) 0, Nat.zero_add]
    rfl
  · refine ⟨by rw [hi.bbs], ?_, hnd, fun e => ?_⟩
    · rw [hi.cps, List.map_append]
      rfl
    · rw [hmem e, hi.mem_edges e]
      simp only [List.mem_append, List.mem_singleton]
      constructor
      · rintro (⟨c, hc, hec⟩ | heb)
        · exact ⟨c, Or.inl hc, hec⟩
        · exact ⟨b, Or.inr rfl, heb⟩
      · rintro ⟨c, hc | rfl, hec⟩
        · exact Or.inl ⟨c, hc, hec⟩
        · exact Or.inr hec

/-- **The first walk** counts all blocks and edges. -/
theorem record_spec (hf : f.Consistent) :
    ∃ w, f.blocks.foldlM (recordBlock f) ⟨[], [], []⟩ = some w ∧ w.bbs = f.blocks ∧
      w.cps = f.blocks.map f.newCp ∧ w.edges.length = f.nEdges := by
  have h0 : RecordInv f [] ⟨[], [], []⟩ := ⟨rfl, rfl, List.nodup_nil, by simp⟩
  obtain ⟨w, hw, hi⟩ := foldlM_total f.blocks h0 fun done b post hblocks w hi =>
    recordBlock_inv hf hblocks hi
  refine ⟨w, hw, hi.bbs, hi.cps, ?_⟩
  rw [hf.edges_count]
  refine List.Perm.length_eq ((List.perm_ext_iff_of_nodup hi.nodup hf.edges_nodup).mpr fun e => ?_)
  rw [hi.mem_edges e]
  constructor
  · rintro ⟨b, hb, he⟩
    exact hf.pred_mem hb he
  · intro he
    obtain ⟨b, hb, hsucc⟩ := List.mem_flatMap.mp he
    obtain ⟨-, hdest, -⟩ := hf.succ_edge b hb e hsucc
    exact ⟨_, hdest, hf.succ_pred hb hsucc⟩

/-! ## The second walk -/

theorem scanPreds_absent {t k : Nat} {es : List Nat} (h : t ∉ es) (res : Option Nat) :
    scanPreds t k es res = some res := by
  induction es with
  | nil => rfl
  | cons e es ih =>
    rw [List.mem_cons, not_or] at h
    rw [scanPreds, if_pos (Ne.symm h.1), ih h.2]

theorem scanPreds_once {t k : Nat} {es : List Nat} (h : es.count t = 1) :
    scanPreds t k es none = some (some k) := by
  induction es with
  | nil => cases h
  | cons e es ih =>
    unfold scanPreds
    by_cases heq : e = t
    · subst heq
      rw [List.count_cons_self] at h
      rw [if_neg (not_not.mpr rfl)]
      exact scanPreds_absent (List.count_eq_zero.mp (by omega)) _
    · rw [List.count_cons_of_ne heq] at h
      rw [if_pos heq, ih h]

theorem scanBlocks_absent {t : Nat} {bs : List Nat} (h : ∀ b ∈ bs, t ∉ f.preds b) (k : Nat)
    (res : Option Nat) : scanBlocks f t bs k res = some res := by
  induction bs generalizing k with
  | nil => rfl
  | cons b bs ih =>
    rw [scanBlocks, scanPreds_absent (h b List.mem_cons_self)]
    exact ih (fun c hc => h c (List.mem_cons_of_mem _ hc)) (k + 1)

theorem scanBlocks_once {t d : Nat} {bs : List Nat} (hnd : bs.Nodup) (hd : d ∈ bs)
    (hone : (f.preds d).count t = 1) (h : ∀ b ∈ bs, t ∈ f.preds b → b = d) (k : Nat) :
    scanBlocks f t bs k none = some (some (k + bs.idxOf d)) := by
  induction bs generalizing k with
  | nil => cases hd
  | cons b bs ih =>
    obtain ⟨hb, hnd'⟩ := List.nodup_cons.mp hnd
    by_cases heq : b = d
    · subst heq
      rw [scanBlocks, scanPreds_once hone, Option.bind_some, List.idxOf_cons_self, Nat.add_zero]
      refine scanBlocks_absent (fun c hc hin => ?_) (k + 1) (some k)
      exact hb (h c (List.mem_cons_of_mem _ hc) hin ▸ hc)
    · have hin : t ∉ f.preds b := fun hin => heq (h b List.mem_cons_self hin)
      rw [scanBlocks, scanPreds_absent hin, Option.bind_some,
        ih hnd' ((List.mem_cons.mp hd).resolve_left (Ne.symm heq))
          (fun c hc => h c (List.mem_cons_of_mem _ hc)) (k + 1),
        List.idxOf_cons_ne _ heq]
      congr 2
      omega

/-- The destination of an edge is found by its number. -/
theorem findDest_eq (hf : f.Consistent) {b e : Nat} (hb : b ∈ f.blocks) (he : e ∈ f.succs b) :
    findDest f f.blocks e = some (f.blocks.idxOf (f.edge e).dest) := by
  obtain ⟨-, hdest, hone⟩ := hf.succ_edge b hb e he
  unfold findDest
  rw [scanBlocks_once hf.blocks_nodup hdest hone fun c hc hin => (hf.pred_edge c hc e hin).1.symm,
    Nat.zero_add]
  rfl

theorem mapM_findDest (hf : f.Consistent) {b : Nat} (hb : b ∈ f.blocks) {addr : List Nat}
    (haddr : addr ⊆ f.succs b) : addr.mapM (findDest f f.blocks) =
      some (addr.map fun e => f.blocks.idxOf (f.edge e).dest) := by
  induction addr with
  | nil => rfl
  | cons e addr ih =>
    obtain ⟨he, hrest⟩ := List.cons_subset.mp haddr
    rw [List.mapM_cons, findDest_eq hf hb he, ih hrest]
    rfl

theorem setNext_eq {rs : List Nat} {j : Nat} {next : List NextCp}
    (h : j + rs.length ≤ next.length) : setNext rs j next =
      some (next.take j ++ rs.map NextCp.path ++ next.drop (j + rs.length)) := by
  induction rs generalizing j next with
  | nil =>
    rw [setNext, List.map_nil, List.append_nil, List.length_nil, Nat.add_zero,
      List.take_append_drop]
  | cons r rs ih =>
    rw [List.length_cons] at h
    rw [setNext, if_pos (by omega), ih (by rw [List.length_set]; omega)]
    have htake : (next.set j (.path r)).take (j + 1) = next.take j ++ [.path r] := by
      rw [List.take_add_one, List.take_set_of_le (Nat.le_refl j),
        List.getElem?_set_self (by omega)]
      rfl
    have hdrop : (next.set j (.path r)).drop (j + 1 + rs.length) =
        next.drop (j + (rs.length + 1)) := by
      rw [List.drop_set_of_lt (by omega)]
      congr 1
      omega
    rw [htake, hdrop, List.map_cons, List.length_cons]
    simp only [List.append_assoc, List.singleton_append]

/-- The entries that are not set stand behind those of the edges. -/
theorem codePathNew_drop (n : Nat) : (codePathNew (n - 2)).next.length = max 2 n ∧
    (codePathNew (n - 2)).next.drop n = List.replicate (2 - n) .null := by
  obtain rfl | rfl | ⟨m, rfl⟩ : n = 0 ∨ n = 1 ∨ ∃ m, n = m + 2 := by
    rcases n with _ | _ | m
    · exact Or.inl rfl
    · exact Or.inr (Or.inl rfl)
    · exact Or.inr (Or.inr ⟨m, rfl⟩)
  · exact ⟨rfl, rfl⟩
  · exact ⟨rfl, rfl⟩
  · have hlen : (codePathNew (m + 2 - 2)).next.length = m + 2 := by
      simp [codePathNew]
    refine ⟨by rw [hlen]; omega, ?_⟩
    rw [List.drop_eq_nil_of_le (by omega)]
    have hzero : 2 - (m + 2) = 0 := by omega
    rw [hzero]
    rfl

/-- **One block of the second walk.** -/
theorem nextOf_spec (hf : f.Consistent) {b : Nat} (hb : b ∈ f.blocks) {addr : List Nat}
    (haddr : f.succs b = addr) :
    ∃ next, nextOf f (f.newCp b) addr (addr.map fun e => f.blocks.idxOf (f.edge e).dest) =
        some next ∧ f.CodePathOf b { f.newCp b with next := next } := by
  by_cases hend : f.EndsInCond b
  · have hhead : (f.newCp b).condHead = some ((f.block b).seq.length - 1) := if_pos hend
    obtain ⟨t, e, hte, htt, htf, het, hef⟩ := hf.cond_succs b hb hend
    have hnext : (f.newCp b).next = [.null, .null] := by
      obtain h | h := hte <;>
      · unfold FunctionBody.newCp
        rw [h]
        rfl
    refine ⟨[f.pathTo e, f.pathTo t], ?_, rfl, fun _ => ⟨hhead, t, e, hte, htt, hef, rfl⟩,
      fun h => absurd hend h⟩
    unfold nextOf
    rw [hhead, hnext]
    obtain h | h := hte
    · rw [← haddr, h]
      simp only [Option.isSome_some, if_true, List.map_cons, htt, hef]
      rfl
    · rw [← haddr, h]
      simp only [Option.isSome_some, if_true, List.map_cons, htt, het, hef]
      rfl
  · have hhead : (f.newCp b).condHead = none := if_neg hend
    obtain ⟨hlen, hdrop⟩ := codePathNew_drop addr.length
    have hnext : (f.newCp b).next = (codePathNew (addr.length - 2)).next := by
      unfold FunctionBody.newCp
      rw [haddr]
    refine ⟨addr.map f.pathTo ++ List.replicate (2 - addr.length) .null, ?_, rfl,
      fun h => absurd h hend, fun _ => ⟨hhead, by rw [haddr]⟩⟩
    unfold nextOf
    rw [hhead, hnext, Option.isSome_none, if_neg (by decide),
      setNext_eq (by rw [hlen, List.length_map]; omega), List.length_map, Nat.zero_add, hdrop,
      List.take_zero, List.nil_append, List.map_map]
    rfl

/-- The state of the second walk: the blocks whose number is in `done` are connected. -/
structure ConnectInv (f : FunctionBody) (done : List Nat) (cps : List CodePath) : Prop where
  length_eq : cps.length = f.blocks.length
  built : ∀ i b cp, i ∈ done → f.blocks[i]? = some b → cps[i]? = some cp → f.CodePathOf b cp
  left : ∀ i b, i ∉ done → f.blocks[i]? = some b → cps[i]? = some (f.newCp b)

theorem connectBlock_inv (hf : f.Consistent) {done : List Nat} {i : Nat}
    (hi : i < f.blocks.length) (hnew : i ∉ done) {cps : List CodePath}
    (hinv : ConnectInv f done cps) :
    ∃ cps', connectBlock f f.blocks cps i = some cps' ∧ ConnectInv f (done ++ [i]) cps' := by
  obtain ⟨b, hb⟩ : ∃ b, f.blocks[i]? = some b := ⟨_, List.getElem?_eq_getElem hi⟩
  have hmem : b ∈ f.blocks := List.mem_of_getElem? hb
  have hcp := hinv.left i b hnew hb
  have hnotin : ∀ {j}, j ∉ done ++ [i] → j ∉ done ∧ j ≠ i := fun {j} hj =>
    ⟨fun h => hj (List.mem_append_left _ h), fun h => hj (by rw [h]; simp)⟩
  obtain ⟨next, hnext, hpath⟩ := nextOf_spec hf hmem rfl
  cases hsuccs : (f.block b).succs with
  | none =>
    refine ⟨cps, ?_, hinv.length_eq, fun j c cp hj hc hcp' => ?_, fun j c hj hc =>
      hinv.left j c (hnotin hj).1 hc⟩
    · unfold connectBlock
      simp only [Option.bind_eq_bind, hb, Option.bind_some, hsuccs]
    · obtain hold | hnow := List.mem_append.mp hj
      · exact hinv.built j c cp hold hc hcp'
      · obtain rfl := List.mem_singleton.mp hnow
        cases hb.symm.trans hc
        cases hcp.symm.trans hcp'
        -- Without successors nothing is set.
        have hnil : f.succs b = [] := by
          unfold FunctionBody.succs
          rw [hsuccs]
          rfl
        have hsame : next = (f.newCp b).next := by
          rw [hnil] at hnext
          unfold nextOf at hnext
          split at hnext
          · cases hnext
          · cases hnext
            rfl
        rw [hsame] at hpath
        exact hpath
  | some addr =>
    have haddr : f.succs b = addr := by
      unfold FunctionBody.succs
      rw [hsuccs]
      rfl
    rw [haddr] at hnext
    have hres := mapM_findDest hf hmem fun e (he : e ∈ addr) => haddr ▸ he
    refine ⟨cps.set i { f.newCp b with next := next }, ?_, ?_, fun j c cp hj hc hcp' => ?_,
      fun j c hj hc => ?_⟩
    · unfold connectBlock
      simp only [Option.bind_eq_bind, hb, Option.bind_some, hsuccs,
        hres, hcp, hnext]
    · rw [List.length_set, hinv.length_eq]
    · by_cases hji : j = i
      · subst hji
        rw [List.getElem?_set_self (by rw [hinv.length_eq]; exact hi)] at hcp'
        cases hcp'
        cases hb.symm.trans hc
        exact hpath
      · rw [List.getElem?_set_ne (Ne.symm hji)] at hcp'
        have hold : j ∈ done := by
          obtain hold | hnow := List.mem_append.mp hj
          · exact hold
          · exact absurd (List.mem_singleton.mp hnow) hji
        exact hinv.built j c cp hold hc hcp'
    · rw [List.getElem?_set_ne (Ne.symm (hnotin hj).2)]
      exact hinv.left j c (hnotin hj).1 hc

/-- **For every consistent body** no assertion fails, and the code paths are the graph of the
    blocks. -/
theorem getFunctionDetail_built (f : FunctionBody) (hf : f.Consistent) :
    ∃ cps, getFunctionDetail f = some cps ∧ f.Built cps := by
  obtain ⟨w, hw, hbbs, hcps, hedges⟩ := record_spec hf
  have h0 : ConnectInv f [] w.cps := by
    refine ⟨by rw [hcps, List.length_map], fun i b cp hi => (by cases hi), fun i b _ hb => ?_⟩
    rw [hcps, List.getElem?_map, hb]
    rfl
  obtain ⟨cps, hrun, hinv⟩ := foldlM_total (List.range f.nBasicBlocks) h0
    fun done i post hrange cps hinv => by
      have hnd := List.nodup_range (n := f.nBasicBlocks)
      have hi : i ∈ List.range f.nBasicBlocks := by
        rw [hrange]
        simp
      rw [hrange, List.nodup_append] at hnd
      refine connectBlock_inv hf ?_ (fun h => hnd.2.2 i h i List.mem_cons_self rfl) hinv
      rw [← hf.blocks_count]
      exact List.mem_range.mp hi
  refine ⟨cps, ?_, ?_⟩
  · unfold getFunctionDetail
    simp only [Option.bind_eq_bind, hw, Option.bind_some, hbbs, hf.blocks_count, hedges]
    rw [if_neg (by simp), ← hf.blocks_count]
    exact hrun
  · refine List.forall₂_iff_get.mpr ⟨hinv.length_eq.symm, fun i hi hi' => ?_⟩
    refine hinv.built i _ _ ?_ (List.getElem?_eq_getElem hi) (List.getElem?_eq_getElem hi')
    rw [List.mem_range, hf.blocks_count]
    exact hi

/-- A condition, a loop of one block that is left to two others, and the exit block. -/
def loopBody : FunctionBody where
  blocks := [0, 2, 3, 4, 1]
  block
    | 0 => ⟨none, some [0], []⟩
    | 2 => ⟨some [0], some [2, 1], [.other, .cond]⟩
    | 3 => ⟨some [3, 1], some [3, 4, 5], [.debug, .other]⟩
    | 4 => ⟨some [2, 4], some [6], []⟩
    | _ => ⟨some [5, 6], none, []⟩
  edge
    | 0 => ⟨0, 2, false, false⟩
    | 1 => ⟨2, 3, true, false⟩
    | 2 => ⟨2, 4, false, true⟩
    | 3 => ⟨3, 3, false, false⟩
    | 4 => ⟨3, 4, false, false⟩
    | 5 => ⟨3, 1, false, false⟩
    | _ => ⟨4, 1, false, false⟩
  nBasicBlocks := 5
  nEdges := 7

theorem loopBody_consistent : loopBody.Consistent where
  blocks_nodup := by decide
  blocks_count := rfl
  edges_count := rfl
  succ_edge := by decide
  pred_edge := by decide
  cond_last := by
    have hall : ∀ b ∈ loopBody.blocks, ∀ i < (loopBody.block b).seq.length,
        (loopBody.block b).seq[i]? = some .cond → i + 1 = (loopBody.block b).seq.length := by decide
    exact fun b hb i hi => hall b hb i (List.getElem?_eq_some_iff.mp hi).1 hi
  cond_succs := by
    have hone : ∀ b ∈ loopBody.blocks, loopBody.EndsInCond b → b = 2 := by decide
    intro b hb hend
    obtain rfl := hone b hb hend
    exact ⟨1, 2, Or.inr rfl, rfl, rfl, rfl, rfl⟩

theorem getFunctionDetail_built_loopBody :
    ∃ cps, getFunctionDetail loopBody = some cps ∧ loopBody.Built cps :=
  getFunctionDetail_built loopBody loopBody_consistent

end Srcinv.Analysis
