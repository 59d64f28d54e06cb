import Srcinv.Analysis.GccNode

/-!
# Function nodes and their call lists (`include/si_core.h`)

A `func_node` keeps the functions it calls and those that call it.  The lists name functions by
the id of their sinode, or by their tree where there is no sinode.
-/

namespace Srcinv.Analysis

/-- `TYPE_FUNC_GLOBAL` in the upper four bits of an id. -/
def TYPE_FUNC_GLOBAL : Nat := 2

def ID_VALUE_BITS : Nat := 28

/-- `struct callf_stmt_list`: a statement that makes the call, by data format. -/
structure CallfStmtList where
  type : Int
  where_ : Nat
  deriving DecidableEq, Repr

/-- `struct callf_list`; `valueFlag` is 0 for an id and 1 for a tree. -/
structure CallfList where
  value : Nat
  valueFlag : Nat
  bodyMissing : Bool
  stmts : List CallfStmtList
  deriving DecidableEq, Repr

/-- The parts of `struct func_node` that hold its calls. -/
structure FuncNode where
  name : Name
  callees : List CallfList
  callers : List CallfList
  deriving DecidableEq, Repr

/-- A function's sinode: its id and the address of its `func_node`, if it has a body. -/
structure FuncSinode where
  id : Nat
  data : Option Nat
  deriving DecidableEq, Repr

/-! ## Call lists -/

/-- The lists name the same function. -/
def CallfList.Is (e : CallfList) (value valueFlag : Nat) : Prop :=
  e.value = value ∧ e.valueFlag = valueFlag

instance (e : CallfList) (value valueFlag : Nat) : Decidable (e.Is value valueFlag) :=
  inferInstanceAs (Decidable (_ ∧ _))

/-- `callf_list_find`. -/
def callfListFind (head : List CallfList) (value valueFlag : Nat) : Option CallfList :=
  head.find? fun tmp => tmp.Is value valueFlag

/-- `__add_call`: the list after the call. -/
def addCall (head : List CallfList) (value valueFlag : Nat) (bodyMissing : Bool) :
    List CallfList :=
  match callfListFind head value valueFlag with
  | some _ => head
  | none => head ++ [⟨value, valueFlag, bodyMissing, []⟩]

/-- `callf_stmt_list_add`. -/
def callfStmtListAdd (head : List CallfStmtList) (type : Int) («where» : Nat) :
    List CallfStmtList :=
  if ⟨type, «where»⟩ ∈ head then head else head ++ [⟨type, «where»⟩]

/-- `callf_stmt_list_add` to the entry that `__add_call` returns. -/
def addStmt (value valueFlag : Nat) (type : Int) («where» : Nat) : List CallfList → List CallfList
  | [] => []
  | e :: es =>
    if e.Is value valueFlag then { e with stmts := callfStmtListAdd e.stmts type «where» } :: es
    else e :: addStmt value valueFlag type «where» es

/-- A function is in a call list. -/
def Listed (head : List CallfList) (value valueFlag : Nat) : Prop :=
  ∃ e ∈ head, e.Is value valueFlag

/-- No function is in a call list twice, and each mark is the one that the function has. -/
structure ListRight (missing : Nat → Nat → Prop) (head : List CallfList) : Prop where
  once : head.Pairwise fun a b => ¬ a.Is b.value b.valueFlag
  mark : ∀ e ∈ head, e.bodyMissing = true ↔ missing e.value e.valueFlag

variable {head : List CallfList} {value valueFlag : Nat} {bodyMissing : Bool}
  {missing : Nat → Nat → Prop}

theorem addCall_cases (head : List CallfList) (value valueFlag : Nat) (bodyMissing : Bool) :
    (Listed head value valueFlag ∧ addCall head value valueFlag bodyMissing = head) ∨
      (¬ Listed head value valueFlag ∧ addCall head value valueFlag bodyMissing =
        head ++ [⟨value, valueFlag, bodyMissing, []⟩]) := by
  unfold addCall
  split
  · rename_i e he
    have hmem := List.mem_of_find?_eq_some he
    have his := List.find?_some he
    exact Or.inl ⟨⟨e, hmem, by simpa using his⟩, rfl⟩
  · rename_i hnone
    refine Or.inr ⟨fun ⟨e, hmem, his⟩ => ?_, rfl⟩
    have hno := List.find?_eq_none.mp hnone e hmem
    simp only [his, decide_true, not_true_eq_false] at hno

/-- Adding a function lists it and no other. -/
theorem listed_addCall (v f : Nat) : Listed (addCall head value valueFlag bodyMissing) v f ↔
    Listed head v f ∨ (v = value ∧ f = valueFlag) := by
  obtain ⟨hold, heq⟩ | ⟨-, heq⟩ := addCall_cases head value valueFlag bodyMissing
  · rw [heq]
    constructor
    · exact Or.inl
    · rintro (h | ⟨rfl, rfl⟩)
      · exact h
      · exact hold
  · rw [heq]
    constructor
    · rintro ⟨e, hmem, his⟩
      obtain hmem | hmem := List.mem_append.mp hmem
      · exact Or.inl ⟨e, hmem, his⟩
      · obtain rfl := List.mem_singleton.mp hmem
        exact Or.inr ⟨his.1.symm, his.2.symm⟩
    · rintro (⟨e, hmem, his⟩ | ⟨rfl, rfl⟩)
      · exact ⟨e, List.mem_append_left _ hmem, his⟩
      · exact ⟨_, List.mem_append_right _ List.mem_cons_self, rfl, rfl⟩

/-- A new entry needs the right mark; an old one is left as it is. -/
theorem ListRight.addCall (h : ListRight missing head)
    (hmark : ¬ Listed head value valueFlag → (bodyMissing = true ↔ missing value valueFlag)) :
    ListRight missing (addCall head value valueFlag bodyMissing) := by
  obtain ⟨-, heq⟩ | ⟨hnew, heq⟩ := addCall_cases head value valueFlag bodyMissing
  · rw [heq]
    exact h
  · rw [heq]
    refine ⟨List.pairwise_append.mpr ⟨h.once, List.pairwise_singleton .., ?_⟩, ?_⟩
    · intro a ha b hb his
      obtain rfl := List.mem_singleton.mp hb
      exact hnew ⟨a, ha, his⟩
    · intro e he
      obtain he | he := List.mem_append.mp he
      · exact h.mark e he
      · obtain rfl := List.mem_singleton.mp he
        exact hmark hnew

/-- A new entry with the wrong mark. -/
theorem not_listRight_addCall (hnew : ¬ Listed head value valueFlag)
    (hmark : ¬ (bodyMissing = true ↔ missing value valueFlag)) :
    ¬ ListRight missing (addCall head value valueFlag bodyMissing) := by
  obtain ⟨hold, -⟩ | ⟨-, heq⟩ := addCall_cases head value valueFlag bodyMissing
  · exact absurd hold hnew
  · rw [heq]
    exact fun h => hmark (h.mark _ (List.mem_append_right _ List.mem_cons_self))

/-- A statement is added to one entry, which stays where it is. -/
theorem mem_addStmt {type : Int} {«where» : Nat} {e : CallfList}
    (he : e ∈ addStmt value valueFlag type «where» head) :
    ∃ e₀ ∈ head, e.value = e₀.value ∧ e.valueFlag = e₀.valueFlag ∧
      e.bodyMissing = e₀.bodyMissing := by
  induction head with
  | nil => cases he
  | cons c cs ih =>
    unfold addStmt at he
    split at he
    · obtain rfl | he := List.mem_cons.mp he
      · exact ⟨c, List.mem_cons_self, rfl, rfl, rfl⟩
      · exact ⟨e, List.mem_cons_of_mem c he, rfl, rfl, rfl⟩
    · obtain rfl | he := List.mem_cons.mp he
      · exact ⟨e, List.mem_cons_self, rfl, rfl, rfl⟩
      · obtain ⟨e₀, hmem, h⟩ := ih he
        exact ⟨e₀, List.mem_cons_of_mem c hmem, h⟩

theorem listed_addStmt (type : Int) («where» : Nat) (v f : Nat) :
    Listed (addStmt value valueFlag type «where» head) v f ↔ Listed head v f := by
  constructor
  · rintro ⟨e, he, his⟩
    obtain ⟨e₀, hmem, hv, hf, -⟩ := mem_addStmt he
    exact ⟨e₀, hmem, hv ▸ his.1, hf ▸ his.2⟩
  · rintro ⟨e, he, his⟩
    induction head with
    | nil => cases he
    | cons c cs ih =>
      unfold addStmt
      split
      · obtain rfl | he := List.mem_cons.mp he
        · exact ⟨_, List.mem_cons_self, his⟩
        · exact ⟨e, List.mem_cons_of_mem _ he, his⟩
      · obtain rfl | he := List.mem_cons.mp he
        · exact ⟨e, List.mem_cons_self, his⟩
        · obtain ⟨e', hmem, his'⟩ := ih he
          exact ⟨e', List.mem_cons_of_mem c hmem, his'⟩

/-- What `ListRight` reads of an entry. -/
def CallfList.key (e : CallfList) : Nat × Nat × Bool :=
  (e.value, e.valueFlag, e.bodyMissing)

theorem map_key_addStmt (type : Int) («where» : Nat) :
    (addStmt value valueFlag type «where» head).map CallfList.key = head.map CallfList.key := by
  induction head with
  | nil => rfl
  | cons c cs ih =>
    unfold addStmt
    split
    · rfl
    · rw [List.map_cons, List.map_cons, ih]

theorem listRight_iff_key : ListRight missing head ↔
    (head.map CallfList.key).Pairwise (fun a b => ¬ (a.1 = b.1 ∧ a.2.1 = b.2.1)) ∧
      ∀ k ∈ head.map CallfList.key, k.2.2 = true ↔ missing k.1 k.2.1 := by
  rw [List.pairwise_map]
  constructor
  · intro h
    refine ⟨h.once, fun k hk => ?_⟩
    obtain ⟨e, he, rfl⟩ := List.mem_map.mp hk
    exact h.mark e he
  · rintro ⟨honce, hmark⟩
    exact ⟨honce, fun e he => hmark _ (List.mem_map_of_mem he)⟩

/-- The statements of an entry are not what `ListRight` reads. -/
theorem listRight_addStmt (type : Int) («where» : Nat) :
    ListRight missing (addStmt value valueFlag type «where» head) ↔ ListRight missing head := by
  rw [listRight_iff_key, listRight_iff_key, map_key_addStmt]

end Srcinv.Analysis
