import Mathlib.Logic.Function.Basic
import Srcinv.Core
import Srcinv.Lib.SearchTree
import Srcinv.Analysis.GccNode

/-!
# The sinode store (`analysis/sinode.c`)

One tree per sinode type, sorted by what makes a symbol of that type unique: the name of a file,
name and resfile of a global symbol, name and place of a type or a static symbol.  A walk by name
and resfile looks at the sinodes themselves, so replacing the data of a linked sinode moves the
keys under the tree.

Sinodes are allocated one after the other and never freed; the pointer to a sinode is its number.
`rb_insert_color` is a parameter that keeps the in-order sequence.
-/

namespace Srcinv.Analysis

open Srcinv.Lib

/-! ## Sinodes -/

/-- The sinode types that have a `SPEC` tree. -/
inductive SinodeType where
  | file
  | type
  | funcGlobal
  | varGlobal
  | funcStatic
  | varStatic
  deriving DecidableEq, Repr

inductive DataFmt where
  | gimple
  | asm
  deriving DecidableEq, Repr

/-- A sibuf as the sinodes refer to it: which one, the address of its resfile, its format. -/
structure SymBuf where
  id : Nat
  rf : Nat
  dataFmt : DataFmt
  deriving DecidableEq, Repr

/-- The `func_node`, `var_node` or `type_node` behind `data`. -/
structure DataNode where
  node : Nat
  size : Nat
  deriving DecidableEq, Repr

/-- The fields of a sinode that a replacement exchanges. -/
structure SinodeData where
  data : Option DataNode
  datalen : Nat
  buf : SymBuf
  obj : Option TreeObj
  locFile : Option Nat
  locLine : Int
  locCol : Int
  /-- Not a field of the code: whether `data` come from a weak definition. -/
  fromWeak : Bool
  deriving DecidableEq, Repr

/-- `struct sinode`.  `weakFlag` is a signed field of one bit, so it is 0 or -1. -/
structure Sinode extends SinodeData where
  type : SinodeType
  name : Name
  weakFlag : Int
  deriving DecidableEq, Repr

/-- A boolean stored in a signed field of one bit. -/
def signedBit (b : Bool) : Int := if b then -1 else 0

/-- The address of a pointer: `NULL` is below all others. -/
def ptr : Option Nat → Nat
  | none => 0
  | some p => p + 1

/-- The `rb_insert_color` after the `p`-th sinode was linked. -/
structure Recolor where
  run : Nat → SearchTree Nat → SearchTree Nat
  toList_run : ∀ p t, (run p t).toList = t.toList

/-- No rotation at all. -/
def Recolor.id : Recolor := ⟨fun _ t => t, fun _ _ => rfl⟩

/-- The sinodes, their trees and the address of the built-in resfile.  The inserted sinodes are a
    history that the code does not keep. -/
structure SinodeStore where
  sn : Nat → Sinode
  next : Nat
  trees : SinodeType → SearchTree Nat
  builtin : Option Nat
  inserted : List Sinode

variable (st : SinodeStore)

/-! ## Searching -/

/-- A step of the walk by file name. -/
def cmpName (name : Name) (p : Nat) : Ordering := compare (st.sn p).name name

/-- A step of the walk by name and place. -/
def cmpNameLoc (locFile : Option Nat) (locLine locCol : Int) (name : Name) (p : Nat) : Ordering :=
  (compare (st.sn p).name name).then
    ((compare (ptr (st.sn p).locFile) (ptr locFile)).then
      ((compare (st.sn p).locLine locLine).then (compare (st.sn p).locCol locCol)))

/-- A step of the walk by name and resfile. -/
def cmpNameResfile (rf : Nat) (name : Name) (p : Nat) : Ordering :=
  (compare (st.sn p).name name).then (compare (st.sn p).buf.rf rf)

/-- `sinode_search_file`. -/
def sinodeSearchFile (name : Name) : Option Nat := (st.trees .file).find (cmpName st name)

/-- `_sinode_search_name_loc`. -/
def sinodeSearchNameLoc (ty : SinodeType) (locFile : Option Nat) (locLine locCol : Int)
    (name : Name) : Option Nat :=
  (st.trees ty).find (cmpNameLoc st locFile locLine locCol name)

/-- `_sinode_search_name_resfile`: the built-in resfile is tried second. -/
def sinodeSearchNameResfile (ty : SinodeType) (rf : Nat) (rf1 : Option Nat) (name : Name) :
    Option Nat :=
  match (st.trees ty).find (cmpNameResfile st rf name) with
  | some p => some p
  | none =>
    match rf1 with
    | none => none
    | some r => if r = rf then none else (st.trees ty).find (cmpNameResfile st r name)

/-- `sinode_search` by `SEARCH_BY_SPEC` with the arguments made from a sinode, as `getbase` does
    before it inserts it. -/
def sinodeSearch (s : Sinode) : Option Nat :=
  match s.type with
  | .file => sinodeSearchFile st s.name
  | .funcGlobal | .varGlobal => sinodeSearchNameResfile st s.type s.buf.rf st.builtin s.name
  | .type | .funcStatic | .varStatic =>
    sinodeSearchNameLoc st s.type s.locFile s.locLine s.locCol s.name

/-! ## Inserting -/

inductive Behavior where
  | none
  | replace
  deriving DecidableEq, Repr

/-- The new sinode with its pointer. -/
def SinodeStore.alloc (s : Sinode) : SinodeStore :=
  { st with sn := Function.update st.sn st.next s, next := st.next + 1 }

/-- `rb_link_node` and `rb_insert_color` where the walk of `probe` ends; an equal sinode is an
    error, and a `BUG` in or right after the function. -/
def linkNode (R : Recolor) (probe : Nat → Ordering) (p : Nat) : Option SinodeStore :=
  ((st.trees (st.sn p).type).link probe p).map fun t =>
    { st with
      trees := Function.update st.trees (st.sn p).type (R.run p t)
      inserted := st.sn p :: st.inserted }

/-- `sinode_insert_file`. -/
def sinodeInsertFile (R : Recolor) (p : Nat) : Option SinodeStore :=
  linkNode st R (cmpName st (st.sn p).name) p

/-- `_sinode_insert_name_loc`. -/
def sinodeInsertNameLoc (R : Recolor) (p : Nat) : Option SinodeStore :=
  let s := st.sn p
  if s.locFile.isNone then none
  else linkNode st R (cmpNameLoc st s.locFile s.locLine s.locCol s.name) p

/-- `sinode_insert_do_replace`. -/
def sinodeInsertDoReplace (oldn newn : Nat) : SinodeStore :=
  { st with
    sn := Function.update
      (Function.update st.sn oldn { st.sn oldn with toSinodeData := (st.sn newn).toSinodeData })
      newn { st.sn newn with toSinodeData := (st.sn oldn).toSinodeData }
    inserted := st.sn newn :: st.inserted }

/-- `_sinode_insert_name_resfile`.  A replacement stops at the first sinode of the name that the
    walk meets. -/
def sinodeInsertNameResfile (R : Recolor) (p : Nat) (behavior : Behavior) : Option SinodeStore :=
  let s := st.sn p
  match behavior with
  | .replace =>
    match (st.trees s.type).find (cmpName st s.name) with
    | some q =>
      if s.type ≠ .funcStatic ∧ s.datalen ≠ (st.sn q).datalen then none
      else some (sinodeInsertDoReplace st q p)
    | none => linkNode st R (cmpName st s.name) p
  | .none => linkNode st R (cmpNameResfile st s.buf.rf s.name) p

/-- `sinode_insert` of the sinode at `p`. -/
def sinodeInsert (R : Recolor) (p : Nat) (behavior : Behavior) : Option SinodeStore :=
  match (st.sn p).type with
  | .file => sinodeInsertFile st R p
  | .type => sinodeInsertNameLoc st R p
  | .funcGlobal => sinodeInsertNameResfile st R p behavior
  | .funcStatic =>
    match behavior with
    | .none => sinodeInsertNameLoc st R p
    | .replace => sinodeInsertNameResfile st R p behavior
  | .varGlobal => sinodeInsertNameResfile st R p behavior
  | .varStatic => sinodeInsertNameLoc st R p

end Srcinv.Analysis
