import Srcinv.Analysis.Sinode

/-!
# From a declaration to its sinode (`include/si_gcc.h`)

The later phases meet a function or a variable as a tree and derive the key of its sinode again.
A failed `BUG_ON` is `none`; `some none` is a declaration without a sinode.
-/

namespace Srcinv.Analysis

open Srcinv.Lib

variable (st : SinodeStore)

/-- `get_func_sinode` of a declaration in a sibuf of the resfile `rf`. -/
def getFuncSinode (rf : Nat) (f : FuncTree) (flag : Bool) : Option (Option Nat) :=
  (getFunctionName f).bind fun name =>
    match checkFileFunc f with
    | none => none
    | some .external =>
      if flag then some (sinodeSearchNameResfile st .funcGlobal rf st.builtin name) else some none
    | some .global => (sinodeSearchNameResfile st .funcGlobal rf st.builtin name).map some
    | some .static =>
      (f.loc.file.bind (sinodeSearchFile st)).map fun locFile =>
        sinodeSearchNameLoc st .funcStatic (some locFile) f.loc.line f.loc.column name

/-- `get_var_sinode` of the declaration at `node`. -/
def getVarSinode (rf node : Nat) (v : VarTree) (flag : Bool) : Option (Option Nat) :=
  (getVarName node v).bind fun name =>
    match checkFileVar v with
    | none => none
    | some .external =>
      if flag then some (sinodeSearchNameResfile st .varGlobal rf st.builtin name) else some none
    | some .global => (sinodeSearchNameResfile st .varGlobal rf st.builtin name).map some
    | some .static =>
      (v.loc.file.bind (sinodeSearchFile st)).map fun locFile =>
        sinodeSearchNameLoc st .varStatic (some locFile) v.loc.line v.loc.column name
    | some .local => some none

variable {st}

/-- What a search by name and resfile returns is in the tree. -/
theorem sinodeSearchNameResfile_mem {ty : SinodeType} {rf : Nat} {rf1 : Option Nat} {name : Name}
    {p : Nat} (h : sinodeSearchNameResfile st ty rf rf1 name = some p) :
    p ∈ (st.trees ty).toList := by
  unfold sinodeSearchNameResfile at h
  split at h
  · rename_i hfind
    cases h
    exact (SearchTree.find_some hfind).1
  split at h
  · cases h
  split at h
  · cases h
  · exact (SearchTree.find_some h).1

/-- A function's sinode is in one of the trees. -/
theorem getFuncSinode_mem {rf : Nat} {f : FuncTree} {flag : Bool} {p : Nat}
    (h : getFuncSinode st rf f flag = some (some p)) :
    ∃ ty, p ∈ (st.trees ty).toList := by
  obtain ⟨name, -, h⟩ := Option.bind_eq_some_iff.mp h
  split at h
  · cases h
  · split at h
    · exact ⟨_, sinodeSearchNameResfile_mem (Option.some.inj h)⟩
    · cases h
  · obtain ⟨q, hq, h⟩ := Option.map_eq_some_iff.mp h
    cases h
    exact ⟨_, sinodeSearchNameResfile_mem hq⟩
  · obtain ⟨locFile, -, h⟩ := Option.map_eq_some_iff.mp h
    exact ⟨_, (SearchTree.find_some h).1⟩

end Srcinv.Analysis
