import Srcinv.Lib.Run
import Mathlib.Logic.Relation

/-!
# The control flow of a function (`analysis/gcc/c.cc`)

The decoder goes from block to block and adds each to the `cp_list` of the function.  The blocks
without a statement that `dec_adjust_cp` passes are not added; nor is the first block, which is
decoded while the entry block is the last of the list.  `dec_gimple_phi` finds the edge that it came
by from the block before the last one: it follows the only edges that fall through.

* `cpStep` — the ways from one block to the next.
* `decGimplePhi` — the loop over the arguments of a phi; copying one is `ssaPhi`.

A result `none` says that a loop does not come back, or that a null pointer is read.
-/

namespace Srcinv.Analysis

/-! ## Blocks and edges -/

/-- `edge_def`: its blocks and `EDGE_FALLTHRU`. -/
structure Edge where
  src : Nat
  dest : Nat
  fallthru : Bool
  deriving DecidableEq, Repr

/-- The flow graph of a function, as GCC has checked it: `first` is the block after the entry block,
    `succs` the vector of edges out of a block (there may be none) and `preds` those into it.  An
    argument of a phi belongs to the edge of its number in `preds`. -/
structure Cfg where
  entry : Nat
  first : Nat
  hasPhi : Nat → Bool
  hasSeq : Nat → Bool
  succs : Nat → Option (List Edge)
  preds : Nat → List Edge
  entry_succs : succs entry = some [⟨entry, first, true⟩]
  mem_preds : ∀ b e, e ∈ preds b ↔ e.dest = b ∧ ∃ es, succs e.src = some es ∧ e ∈ es
  succs_src : ∀ b es e, succs b = some es → e ∈ es → e.src = b
  edge_unique : ∀ b es e e', succs b = some es → e ∈ es → e' ∈ es → e.dest = e'.dest → e = e'
  preds_nodup : ∀ b, (preds b).Nodup

namespace Cfg

variable (g : Cfg)

/-- `cp_first_gimple` is `NULL`. -/
def isEmpty (b : Nat) : Bool := !g.hasPhi b && !g.hasSeq b

/-- The only edge out of a block, if that falls through; `none` where there is no vector. -/
def fallEdge (b : Nat) : Option (Option Edge) :=
  (g.succs b).map fun es =>
    match es with
    | [e] => if e.fallthru then some e else none
    | _ => none

end Cfg

/-! ## From block to block -/

/-- `dec_adjust_cp`: the last edge that is followed, or an error. -/
def decAdjustCp (g : Cfg) : Nat → Nat → Option (Option Edge)
  | 0, _ => none
  | fuel + 1, b =>
    match g.fallEdge b with
    | some (some e) => if g.isEmpty e.dest then decAdjustCp g fuel e.dest else some (some e)
    | _ => some none

/-- The `cp_list` of a function (the last one first), the block that is decoded, and whether
    `curpos` is `NULL`.  The edge that the block was entered by is not kept by the code. -/
structure CpState where
  cps : List Nat
  cur : Nat
  atEnd : Bool
  entered : Option Edge
  deriving DecidableEq, Repr

/-- A condition or a switch takes an edge, the last statement of a block has been decoded, or the
    decoder goes on without one. -/
inductive CpEvent where
  | branch (e : Edge)
  | finish
  | adjust
  deriving DecidableEq, Repr

/-- `fnl_init`: `fn_first_gimple` is no phi. -/
def Cfg.start (g : Cfg) : CpState := ⟨[g.entry], g.first, !g.hasSeq g.first, none⟩

/-- The next block is added. -/
def CpState.enter (s : CpState) (g : Cfg) (e : Edge) : CpState :=
  ⟨e.dest :: s.cps, e.dest, g.isEmpty e.dest, some e⟩

/-- The decoder stops at an error. -/
def cpStep (g : Cfg) (fuel : Nat) (s : CpState) : CpEvent → Option CpState
  | .branch e =>
    if ¬ s.atEnd ∧ e ∈ (g.succs s.cur).getD [] then some (s.enter g e) else none
  | .finish => if s.atEnd then none else some { s with atEnd := true }
  | .adjust =>
    if ¬ s.atEnd then none
    else
      match s.cps.head?.bind (decAdjustCp g fuel) with
      | some (some e) => some (s.enter g e)
      | _ => none

/-! ## Phis -/

/-- The loop from the block before to the source of an edge. -/
def onChain (g : Cfg) (src : Nat) : Nat → Nat → Option Bool
  | 0, _ => none
  | fuel + 1, b =>
    if b = src then some true
    else
      match g.fallEdge b with
      | none => none
      | some none => some false
      | some (some e) => onChain g src fuel e.dest

/-- The first argument with an edge from a block that is found. -/
def phiArg (g : Cfg) (fuel prev : Nat) : List Edge → Option (Option Nat)
  | [] => some none
  | e :: es =>
    match onChain g e.src fuel prev with
    | none => none
    | some true => some (some 0)
    | some false => (phiArg g fuel prev es).map (Option.map (· + 1))

/-- `dec_gimple_phi`: the number of the argument that is assigned. -/
def decGimplePhi (g : Cfg) (fuel : Nat) (s : CpState) : Option (Option Nat) :=
  match s.cps with
  | _ :: prev :: _ => phiArg g fuel prev (g.preds s.cur)
  | _ => none

end Srcinv.Analysis
