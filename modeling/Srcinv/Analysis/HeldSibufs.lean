import Srcinv.Lib.Returns
import Srcinv.Analysis.Xnode
import Srcinv.Analysis.HoldBlocks

/-!
# The sibufs held over a lookup (`include/si_gcc.h`)

The nodes of a file can be read while its sibuf is held.  `get_type_xnode`, `get_func_sinode` and
`get_var_sinode` look up what a node stands for, `si_get_alias_name` what it is called, and each
holds the sibuf of the node meanwhile.  What they call leaves the thread with the sibufs it had.

* `sibufBlock_keeps` — what is done while a sibuf is held changes nothing for the sibufs around it.
* `heldSibufs_exact` — the lookups keep what is held on every return; the name of an alias keeps it
  except when a string that is too long is found in a sibuf that was not held before.
* `long_alias_stays_held` — such a string.
-/

namespace Srcinv.Analysis

open Srcinv.Lib

/-! ## What is held -/

/-- The users of every sibuf, by its number. -/
structure SibufUsers where
  users : Nat → List Nat
  nodup : ∀ b, (users b).Nodup

/-- The sibufs that a thread holds. -/
def heldBy (user : Nat) (s : SibufUsers) : Set Nat := {b | user ∈ s.users b}

/-- Sibuf `b` gets other users. -/
def SibufUsers.put (s : SibufUsers) (b : Nat) (us : List Nat) (h : us.Nodup) : SibufUsers where
  users := Function.update s.users b us
  nodup c := by
    rcases eq_or_ne c b with rfl | hne
    · rw [Function.update_self]
      exact h
    · rw [Function.update_of_ne hne]
      exact s.nodup c

theorem mem_heldBy_put {user b c : Nat} {s : SibufUsers} {us : List Nat} {h : us.Nodup} :
    c ∈ heldBy user (s.put b us h) ↔ if c = b then user ∈ us else c ∈ heldBy user s := by
  change user ∈ Function.update s.users b us c ↔ _
  rw [Function.update_apply]
  split <;> rfl

theorem nodup_sibufDelUser {users : List Nat} (user : Nat) (h : users.Nodup) :
    (sibufDelUser users user).Nodup := h.erase user

/-- The node behind an alias; a string constant with its `TREE_STRING_LENGTH` bytes. -/
inductive AliasNode where
  | identifier (id : Name)
  | stringCst (bytes : Name)
  | other
  deriving DecidableEq, Repr

/-- The arguments of `analysis__sinode_search` with `SEARCH_BY_SPEC`. -/
inductive SearchSpec where
  | file (path : Option Name)
  | global (rf : Nat) (builtin : Option Nat) (name : Name)
  | place (locFile : Nat) (line column : Int) (name : Name)
  deriving DecidableEq, Repr

/-- What a lookup finds around it: the thread it runs in, the nodes, and the functions it calls.
    `touch` is what reading a node does, which may fault and load its sibuf for a moment. -/
structure LookupEnv where
  user : Nat
  sibufOf : Nat → Option Nat
  rfOf : Nat → Nat
  builtinResfile : Option Nat
  loads : SibufUsers → Nat → Bool
  typeAt : Nat → TypeTree
  funcAt : Nat → FuncTree
  varAt : Nat → VarTree
  aliasAt : Nat → AliasNode
  touch : SibufUsers → SibufUsers
  touch_keeps : ∀ s, heldBy user (touch s) = heldBy user s
  sinodeSearch : SinodeType → SearchSpec → Keeper (heldBy user) (Option Nat)
  sibufTypenodeSearch : Nat → Nat → Nat → Keeper (heldBy user) (Option Nat)

namespace LookupEnv

variable (E : LookupEnv)

/-! ## The code -/

/-- `analysis__sibuf_hold`; -1 when the resfile cannot be opened. -/
def sibufHold (b : Nat) : Prog SibufUsers Int := fun s =>
  if E.loads s b then
    some ((sibufAddUser (s.users b) E.user).2,
      s.put b (sibufAddUser (s.users b) E.user).1 (nodup_sibufAddUser E.user (s.nodup b)))
  else some (-1, s)

/-- `if (!held) analysis__sibuf_drop(b)`. -/
def dropHeld (b : Nat) (held : Int) : Prog SibufUsers Unit := fun s =>
  if held = 0 then
    some ((), s.put b (sibufDelUser (s.users b) E.user) (nodup_sibufDelUser E.user (s.nodup b)))
  else some ((), s)

/-- Reading a node. -/
def readNode {α : Type} (a : α) : Prog SibufUsers α := fun s => some (a, E.touch s)

/-- What is done with `b` held, up to the label `out`. -/
def sibufBlock {α : Type} (b : Nat) (body : Prog SibufUsers α) : Prog SibufUsers α := do
  let held ← E.sibufHold b
  let ret ← body
  E.dropHeld b held
  pure ret

/-- A type without a name is searched by a generated one. -/
def typeXnodeName (t : TypeTree) (locFile : Nat) (xloc : XLoc) (name : Name) : Option Name :=
  if name = [] then genTypeName t locFile xloc else some name

/-- `get_type_xnode` once the node, its name and its place are known. -/
def typeXnodeSearch (b node : Nat) (t : TypeTree) (name : Name) (xloc : Option XLoc) :
    Prog SibufUsers (Option Nat × Option Nat) :=
  match xloc.bind XLoc.file, xloc with
  | some file, some xloc => do
    let locFile ← (E.sinodeSearch .file (.file (some file))).run
    let locFile ← liftM locFile
    let name ← liftM (typeXnodeName t locFile xloc name)
    if name ≠ [] then do
      let sn ← (E.sinodeSearch .type (.place locFile xloc.line xloc.column name)).run
      pure (sn, none)
    else do
      let tn ← (E.sibufTypenodeSearch b t.code node).run
      pure (none, tn)
  | _, _ => do
    let tn ← (E.sibufTypenodeSearch b t.code node).run
    pure (none, tn)

/-- `get_type_xnode`: `*sn_ret` and `*tn_ret`. -/
def getTypeXnode (node : Nat) : Prog SibufUsers (Option Nat × Option Nat) :=
  match E.sibufOf node with
  | none => pure (none, none)
  | some b => do
    let held ← E.sibufHold b
    let t ← E.readNode (E.typeAt node)
    let name ← liftM (getTypeName t)
    match checkFileType node t with
    | .canonicaled => do
      E.dropHeld b held
      match E.sibufOf t.canonical with
      | none => pure (none, none)
      | some b => E.sibufBlock b do
        let node := t.canonical
        let t ← E.readNode (E.typeAt node)
        let name ← liftM (getTypeName t)
        E.typeXnodeSearch b node t name (getLocation t)
    | .undefined => do
      E.dropHeld b held
      pure (none, none)
    | .defined => do
      let ret ← E.typeXnodeSearch b node t name (getLocation t)
      E.dropHeld b held
      pure ret

/-- The search for a static symbol by its place. -/
def staticSearch (ty : SinodeType) (xloc : XLoc) (name : Name) : Prog SibufUsers (Option Nat) := do
  let locFile ← (E.sinodeSearch .file (.file xloc.file)).run
  let locFile ← liftM locFile
  (E.sinodeSearch ty (.place locFile xloc.line xloc.column name)).run

/-- `get_func_sinode`. -/
def getFuncSinode (node : Nat) (flag : Bool) : Prog SibufUsers (Option Nat) := do
  let b ← liftM (E.sibufOf node)
  E.sibufBlock b do
    let f ← E.readNode (E.funcAt node)
    let name ← liftM (getFunctionName f)
    let funcFlag ← liftM (checkFileFunc f)
    match funcFlag with
    | .external =>
      if flag then (E.sinodeSearch .funcGlobal (.global (E.rfOf b) E.builtinResfile name)).run
      else pure none
    | .global => do
      let sn ← (E.sinodeSearch .funcGlobal (.global (E.rfOf b) E.builtinResfile name)).run
      let sn ← liftM sn
      pure (some sn)
    | .static => E.staticSearch .funcStatic f.loc name

/-- `get_var_sinode`. -/
def getVarSinode (node : Nat) (flag : Bool) : Prog SibufUsers (Option Nat) := do
  let b ← liftM (E.sibufOf node)
  E.sibufBlock b do
    let v ← E.readNode (E.varAt node)
    let name ← liftM (getVarName node v)
    let varFlag ← liftM (checkFileVar v)
    match varFlag with
    | .external =>
      if flag then (E.sinodeSearch .varGlobal (.global (E.rfOf b) E.builtinResfile name)).run
      else pure none
    | .global => do
      let sn ← (E.sinodeSearch .varGlobal (.global (E.rfOf b) E.builtinResfile name)).run
      let sn ← liftM sn
      pure (some sn)
    | .static => E.staticSearch .varStatic v.loc name
    | .local => pure none

/-- `si_get_alias_name`.  A sibuf that is not there is dereferenced. -/
def siGetAliasName (namelen node : Nat) : Prog SibufUsers (Option Name) :=
  if node = 0 then pure none
  else do
    let b ← liftM (E.sibufOf node)
    let held ← E.sibufHold b
    let n ← E.readNode (E.aliasAt node)
    match n with
    | .identifier id => do
      let name ← liftM (getNodeName id)
      E.dropHeld b held
      pure (some name)
    | .stringCst bytes =>
      if namelen ≤ bytes.length then pure none
      else do
        E.dropHeld b held
        pure (some bytes)
    | .other => failure

/-! ## Holding a sibuf and dropping it -/

variable {E} {b node namelen : Nat} {flag : Bool} {held : Int} {s s' t : SibufUsers} {α : Type}

/-- The thread has what it had in `s`, and `b` when it took it. -/
def Owes (E : LookupEnv) (s : SibufUsers) (b : Nat) (held : Int) (t : SibufUsers) : Prop :=
  if held = 0 then b ∉ heldBy E.user s ∧ ∀ c, c ∈ heldBy E.user t ↔ c = b ∨ c ∈ heldBy E.user s
  else heldBy E.user t = heldBy E.user s

theorem Owes.keep (h : E.Owes s b held t) (hview : heldBy E.user s' = heldBy E.user t) :
    E.Owes s b held s' := by
  unfold Owes at h ⊢
  rwa [hview]

/-- The thread has one more sibuf exactly when `sibuf_hold` returned 0. -/
theorem Owes.same_iff (h : E.Owes s b held t) :
    heldBy E.user t = heldBy E.user s ↔ held ≠ 0 := by
  unfold Owes at h
  split at h
  · rename_i hzero
    refine iff_of_false (fun hsame => h.1 ?_) (not_not_intro hzero)
    rw [← hsame]
    exact (h.2 b).mpr (Or.inl rfl)
  · rename_i hne
    exact iff_of_true h hne

theorem mem_heldBy_hold {h : (sibufAddUser (s.users b) E.user).1.Nodup} (c : Nat) :
    c ∈ heldBy E.user (s.put b (sibufAddUser (s.users b) E.user).1 h) ↔
      c = b ∨ c ∈ heldBy E.user s := by
  rw [mem_heldBy_put, mem_sibufAddUser]
  split
  · rename_i hcb
    simp [hcb]
  · rename_i hcb
    simp [hcb]

/-- What `sibuf_hold` returns says whether the thread has one more sibuf. -/
theorem sibufHold_returns (b : Nat) (s : SibufUsers) :
    Ensures s (E.sibufHold b) fun held t =>
      E.Owes s b held t ∧ (held = 0 ↔ b ∉ heldBy E.user s ∧ E.loads s b = true) := by
  intro held t hret
  unfold sibufHold at hret
  split at hret
  · rename_i hload
    cases hret
    have hheld : (sibufAddUser (s.users b) E.user).2 = 0 ↔ b ∉ heldBy E.user s :=
      sibufAddUser_held
    refine ⟨?_, by rw [hheld, and_iff_left hload]⟩
    unfold Owes
    split
    · rename_i hzero
      exact ⟨hheld.mp hzero, fun c => mem_heldBy_hold c⟩
    · rename_i hne
      have hmem : b ∈ heldBy E.user s := by
        by_contra hnot
        exact hne (hheld.mpr hnot)
      ext c
      rw [mem_heldBy_hold]
      constructor
      · rintro (rfl | hc)
        · exact hmem
        · exact hc
      · exact Or.inr
  · rename_i hload
    cases hret
    exact ⟨by simp [Owes], by simp [hload]⟩

/-- Dropping what was taken gives back what there was. -/
theorem dropHeld_returns (h : E.Owes s b held t) :
    Ensures t (E.dropHeld b held) fun _ s' => heldBy E.user s' = heldBy E.user s := by
  intro _ s' hret
  unfold dropHeld at hret
  unfold Owes at h
  split at hret
  · rename_i hzero
    cases hret
    rw [if_pos hzero] at h
    ext c
    rw [mem_heldBy_put]
    split
    · rename_i hcb
      rw [hcb]
      exact iff_of_false (fun hmem => (t.nodup b).not_mem_erase hmem) h.1
    · rename_i hcb
      rw [h.2 c, or_iff_right hcb]
  · rename_i hne
    cases hret
    rw [if_neg hne] at h
    exact h

/-- A return after a drop. -/
theorem dropHeld_pure (h : E.Owes s b held t) (a : α) :
    Ensures t (E.dropHeld b held >>= fun _ => (pure a : Prog SibufUsers α)) fun _ s' =>
      heldBy E.user s' = heldBy E.user s :=
  (dropHeld_returns h).bind fun _ _ hview => Ensures.pure hview

theorem readNode_returns (a : α) (s : SibufUsers) :
    Ensures s (E.readNode a) fun a' t => a' = a ∧ heldBy E.user t = heldBy E.user s := by
  intro a' s' hret
  cases hret
  exact ⟨rfl, E.touch_keeps s⟩

theorem readNode_keeps (a : α) : KeepsView (heldBy E.user) (E.readNode a) := fun s =>
  (readNode_returns a s).imp fun _ _ h => h.2

/-- **A block leaves the thread with the sibufs it had**, whether it had `b` already or not. -/
theorem sibufBlock_keeps {body : Prog SibufUsers α} (hbody : KeepsView (heldBy E.user) body) :
    KeepsView (heldBy E.user) (E.sibufBlock b body) := fun s =>
  (sibufHold_returns b s).bind fun _ t hown =>
    (hbody t).bind fun ret _ hview => dropHeld_pure (hown.1.keep hview) ret

/-! ## The lookups -/

theorem lift_keeps (o : Option α) : KeepsView (heldBy E.user) (liftM o : Prog SibufUsers α) :=
  KeepsView.lift o

theorem search_keeps (ty : SinodeType) (spec : SearchSpec) :
    KeepsView (heldBy E.user) (E.sinodeSearch ty spec).run := (E.sinodeSearch ty spec).keeps

theorem typeXnodeSearch_keeps (b node : Nat) (t : TypeTree) (name : Name) (xloc : Option XLoc) :
    KeepsView (heldBy E.user) (E.typeXnodeSearch b node t name xloc) := by
  have htypenode := (E.sibufTypenodeSearch b t.code node).keeps.bind fun tn =>
    @KeepsView.pure _ _ _ (heldBy E.user) ((none, tn) : Option Nat × Option Nat)
  unfold typeXnodeSearch
  split
  · refine (search_keeps _ _).bind fun locFile => (lift_keeps locFile).bind fun locFile => ?_
    refine (lift_keeps _).bind fun name => ?_
    split
    · exact (search_keeps _ _).bind fun _ => KeepsView.pure _
    · exact htypenode
  · exact htypenode

theorem staticSearch_keeps (ty : SinodeType) (xloc : XLoc) (name : Name) :
    KeepsView (heldBy E.user) (E.staticSearch ty xloc name) :=
  (search_keeps _ _).bind fun locFile => (lift_keeps locFile).bind fun _ => search_keeps _ _

/-- A global symbol that has to be there. -/
theorem globalSearch_keeps (ty : SinodeType) (spec : SearchSpec) :
    KeepsView (heldBy E.user) (do
      let sn ← (E.sinodeSearch ty spec).run
      let sn ← liftM sn
      pure (some sn)) :=
  (search_keeps ty spec).bind fun sn => (lift_keeps sn).bind fun _ => KeepsView.pure _

/-- `get_type_xnode` drops the sibuf of the node before it holds the one of the canonical type. -/
theorem getTypeXnode_keeps (node : Nat) : KeepsView (heldBy E.user) (E.getTypeXnode node) := by
  unfold getTypeXnode
  split
  · exact KeepsView.pure _
  · rename_i b hb
    intro s
    refine (sibufHold_returns b s).bind fun held t hown => ?_
    refine Ensures.after (readNode_keeps _) fun ty t₁ hview₁ => ?_
    refine Ensures.after (lift_keeps (E := E) _) fun name t₂ hview₂ => ?_
    have hown₂ := (hown.1.keep hview₁).keep hview₂
    split
    · refine (dropHeld_returns hown₂).bind fun _ t₃ hview₃ => ?_
      split
      · exact Ensures.pure hview₃
      · rename_i b' hb'
        have hblock : KeepsView (heldBy E.user) (E.sibufBlock b' do
            let node := ty.canonical
            let t ← E.readNode (E.typeAt node)
            let name ← liftM (getTypeName t)
            E.typeXnodeSearch b' node t name (getLocation t)) :=
          sibufBlock_keeps ((readNode_keeps _).bind fun _ => (lift_keeps _).bind fun _ =>
            typeXnodeSearch_keeps _ _ _ _ _)
        exact (hblock t₃).imp fun _ _ h => h.trans hview₃
    · exact dropHeld_pure hown₂ _
    · refine Ensures.after (typeXnodeSearch_keeps _ _ _ _ _) fun ret t₃ hview₃ => ?_
      exact dropHeld_pure (hown₂.keep hview₃) ret

theorem getFuncSinode_keeps (node : Nat) (flag : Bool) :
    KeepsView (heldBy E.user) (E.getFuncSinode node flag) := by
  refine (lift_keeps _).bind fun b => sibufBlock_keeps ?_
  refine (readNode_keeps _).bind fun f => (lift_keeps _).bind fun name => ?_
  refine (lift_keeps _).bind fun funcFlag => ?_
  split
  · split
    · exact search_keeps _ _
    · exact KeepsView.pure _
  · exact globalSearch_keeps _ _
  · exact staticSearch_keeps _ _ _

theorem getVarSinode_keeps (node : Nat) (flag : Bool) :
    KeepsView (heldBy E.user) (E.getVarSinode node flag) := by
  refine (lift_keeps _).bind fun b => sibufBlock_keeps ?_
  refine (readNode_keeps _).bind fun v => (lift_keeps _).bind fun name => ?_
  refine (lift_keeps _).bind fun varFlag => ?_
  split
  · split
    · exact search_keeps _ _
    · exact KeepsView.pure _
  · exact globalSearch_keeps _ _
  · exact staticSearch_keeps _ _ _
  · exact KeepsView.pure _

/-- The early return of `si_get_alias_name` is reached with the sibuf newly held. -/
def AliasLeaks (E : LookupEnv) (namelen node : Nat) (s : SibufUsers) : Prop :=
  node ≠ 0 ∧ ∃ b, E.sibufOf node = some b ∧ b ∉ heldBy E.user s ∧ E.loads s b = true ∧
    ∃ bytes, E.aliasAt node = .stringCst bytes ∧ namelen ≤ bytes.length

/-- What `si_get_alias_name` leaves held. -/
theorem siGetAliasName_returns (namelen node : Nat) (s : SibufUsers) :
    Ensures s (E.siGetAliasName namelen node) fun _ t =>
      heldBy E.user t = heldBy E.user s ↔ ¬ E.AliasLeaks namelen node s := by
  unfold siGetAliasName
  split
  · rename_i hnull
    exact Ensures.pure (by simp [AliasLeaks, hnull])
  · rename_i hnode
    refine (Ensures.lift _).bind fun b s' hb => ?_
    obtain ⟨hb, hs⟩ := hb
    rw [hs]
    refine (sibufHold_returns b s).bind fun held t hown => ?_
    refine (readNode_returns _ t).bind fun _ t' hread => ?_
    obtain ⟨rfl, hview⟩ := hread
    have hown' := hown.1.keep hview
    cases hn : E.aliasAt node with
    | identifier id =>
      have hno : ¬ E.AliasLeaks namelen node s := by simp [AliasLeaks, hn]
      refine Ensures.after (lift_keeps (E := E) _) fun name t₂ hview₂ => ?_
      exact (dropHeld_pure (hown'.keep hview₂) _).imp fun _ u hu => iff_of_true hu hno
    | stringCst bytes =>
      have hleaks : E.AliasLeaks namelen node s ↔ held = 0 ∧ namelen ≤ bytes.length := by
        rw [hown.2]
        simp [AliasLeaks, hn, hb, hnode, and_assoc]
      dsimp only
      split
      · rename_i hlong
        refine Ensures.pure ?_
        rw [hleaks, and_iff_left hlong]
        exact hown'.same_iff
      · rename_i hfits
        have hno : ¬ E.AliasLeaks namelen node s := fun h => hfits (hleaks.mp h).2
        exact (dropHeld_pure hown' _).imp fun _ u hu => iff_of_true hu hno
    | other => exact Ensures.stop

/-- A string that is too long makes `si_get_alias_name` return. -/
theorem siGetAliasName_leaks (h : E.AliasLeaks namelen node s) :
    ∃ t, E.siGetAliasName namelen node s = some (none, t) := by
  obtain ⟨hnode, b, hb, -, hload, bytes, hn, hlong⟩ := h
  refine ⟨E.touch (s.put b (sibufAddUser (s.users b) E.user).1
    (nodup_sibufAddUser E.user (s.nodup b))), ?_⟩
  unfold siGetAliasName
  rw [if_neg hnode, hb]
  change (E.sibufHold b s).bind _ = _
  unfold sibufHold
  rw [if_pos hload, hn, Option.bind_some]
  change (if namelen ≤ bytes.length then pure none else _ : Prog SibufUsers (Option Name)) _ = _
  rw [if_pos hlong]
  rfl

/-- Every return of the four lookups is with the sibufs that were held at entry. -/
structure LookupsKeep (E : LookupEnv) (namelen node : Nat) (flag : Bool) (s : SibufUsers) :
    Prop where
  typeXnode : Ensures s (E.getTypeXnode node) fun _ t => heldBy E.user t = heldBy E.user s
  funcSinode : Ensures s (E.getFuncSinode node flag) fun _ t => heldBy E.user t = heldBy E.user s
  varSinode : Ensures s (E.getVarSinode node flag) fun _ t => heldBy E.user t = heldBy E.user s
  aliasName : Ensures s (E.siGetAliasName namelen node) fun _ t =>
    heldBy E.user t = heldBy E.user s

/-- **The lookups leave held what was held, except that the name of an alias does not drop the
    sibuf it took when the name is a string that does not fit.** -/
theorem heldSibufs_exact (E : LookupEnv) (namelen node : Nat) (flag : Bool) (s : SibufUsers) :
    E.LookupsKeep namelen node flag s ↔ ¬ E.AliasLeaks namelen node s := by
  constructor
  · intro h hleaks
    obtain ⟨t, hret⟩ := siGetAliasName_leaks hleaks
    exact (siGetAliasName_returns namelen node s _ t hret).mp (h.aliasName _ t hret) hleaks
  · intro hno
    exact ⟨getTypeXnode_keeps node s, getFuncSinode_keeps node flag s,
      getVarSinode_keeps node flag s,
      (siGetAliasName_returns namelen node s).imp fun _ _ h => h.mpr hno⟩

/-- A thread that holds nothing and looks at a string as long as a name can be. -/
def longAlias : LookupEnv where
  user := 1
  sibufOf _ := some 0
  rfOf _ := 0
  builtinResfile := none
  loads _ _ := true
  typeAt _ := ⟨0, .other, 0, false, .null, []⟩
  funcAt _ := ⟨none, false, false, false, false, none, ⟨none, 0, 0⟩⟩
  varAt _ := ⟨none, false, false, false, false, ⟨none, 0, 0⟩⟩
  aliasAt _ := .stringCst (List.replicate NAME_MAX 97)
  touch s := s
  touch_keeps _ := rfl
  sinodeSearch _ _ := ⟨pure none, KeepsView.pure none⟩
  sibufTypenodeSearch _ _ _ := ⟨pure none, KeepsView.pure none⟩

/-- The sibuf of the string stays held. -/
theorem long_alias_stays_held :
    ¬ longAlias.LookupsKeep NAME_MAX 1 true ⟨fun _ => [], fun _ => List.nodup_nil⟩ := by
  intro h
  have hleaks : longAlias.AliasLeaks NAME_MAX 1 ⟨fun _ => [], fun _ => List.nodup_nil⟩ :=
    ⟨Nat.one_ne_zero, 0, rfl, List.not_mem_nil, rfl, List.replicate NAME_MAX 97, rfl,
      by rw [List.length_replicate]⟩
  obtain ⟨t, hret⟩ := siGetAliasName_leaks hleaks
  have hsame := h.aliasName _ t hret
  exact (siGetAliasName_returns NAME_MAX 1 _ _ t hret).mp hsame hleaks

/-! ## What the lookups return -/

/-- The searches are those of a store. -/
structure SearchesIn (E : LookupEnv) (st : SinodeStore) : Prop where
  builtin : E.builtinResfile = st.builtin
  file : ∀ path s, Ensures s (E.sinodeSearch .file (.file path)).run fun p _ =>
    p = path.bind (sinodeSearchFile st)
  global : ∀ ty rf rf1 name s, Ensures s (E.sinodeSearch ty (.global rf rf1 name)).run fun p _ =>
    p = sinodeSearchNameResfile st ty rf rf1 name
  place : ∀ ty locFile line column name s,
    Ensures s (E.sinodeSearch ty (.place locFile line column name)).run fun p _ =>
      p = sinodeSearchNameLoc st ty (some locFile) line column name

/-- What a block returns is what its body returns. -/
theorem sibufBlock_returns {body : Prog SibufUsers α} {post : α → Prop}
    (hbody : ∀ t, Ensures t body fun a _ => post a) :
    Ensures s (E.sibufBlock b body) fun a _ => post a :=
  (sibufHold_returns b s).bind fun _ t _ =>
    (hbody t).bind fun ret u hret _ _ hdone => by
      obtain ⟨_, v, -, hlast⟩ := bind_returns hdone
      cases hlast
      exact hret

theorem staticSearch_returns {st : SinodeStore} (hst : E.SearchesIn st) (ty : SinodeType)
    (xloc : XLoc) (name : Name) :
    Ensures s (E.staticSearch ty xloc name) fun p _ =>
      (xloc.file.bind (sinodeSearchFile st)).map (fun locFile =>
        sinodeSearchNameLoc st ty (some locFile) xloc.line xloc.column name) = some p := by
  refine (hst.file xloc.file s).bind fun _ t hfile => ?_
  refine (Ensures.lift _).bind fun locFile u hloc => ?_
  refine (hst.place ty locFile xloc.line xloc.column name u).imp fun p _ hp => ?_
  rw [← hfile, hloc.1, hp]
  rfl

theorem globalSearch_returns {st : SinodeStore} (hst : E.SearchesIn st) (ty : SinodeType)
    (rf : Nat) (name : Name) :
    Ensures s (do
      let sn ← (E.sinodeSearch ty (.global rf E.builtinResfile name)).run
      let sn ← liftM sn
      pure (some sn)) fun p _ =>
        (sinodeSearchNameResfile st ty rf st.builtin name).map some = some p := by
  refine (hst.global ty rf _ name s).bind fun _ t hsn => ?_
  refine (Ensures.lift _).bind fun sn u hsome => Ensures.pure ?_
  rw [← hst.builtin, ← hsn, hsome.1]
  rfl

/-- `get_func_sinode` returns the sinode that the later phases derive from the declaration. -/
theorem getFuncSinode_returns {st : SinodeStore} (hst : E.SearchesIn st)
    (hb : E.sibufOf node = some b) :
    Ensures s (E.getFuncSinode node flag) fun p _ =>
      Srcinv.Analysis.getFuncSinode st (E.rfOf b) (E.funcAt node) flag = some p := by
  refine (Ensures.lift _).bind fun b' _ hb' => ?_
  obtain ⟨hb', -⟩ := hb'
  rw [hb] at hb'
  cases hb'
  refine sibufBlock_returns fun t => ?_
  refine (readNode_returns _ t).bind fun _ u hread => ?_
  rw [hread.1]
  refine (Ensures.lift _).bind fun name v hname => ?_
  refine (Ensures.lift _).bind fun funcFlag w hflag => ?_
  unfold Srcinv.Analysis.getFuncSinode
  rw [hname.1, hflag.1, Option.bind_some]
  cases funcFlag with
  | external =>
    cases flag with
    | true => exact (hst.global _ _ _ name w).imp fun p _ hp => by rw [hp, hst.builtin]; rfl
    | false => exact Ensures.pure rfl
  | global => exact globalSearch_returns hst _ _ _
  | static => exact staticSearch_returns hst _ _ _

/-- `get_var_sinode` likewise. -/
theorem getVarSinode_returns {st : SinodeStore} (hst : E.SearchesIn st)
    (hb : E.sibufOf node = some b) :
    Ensures s (E.getVarSinode node flag) fun p _ =>
      Srcinv.Analysis.getVarSinode st (E.rfOf b) node (E.varAt node) flag = some p := by
  refine (Ensures.lift _).bind fun b' _ hb' => ?_
  obtain ⟨hb', -⟩ := hb'
  rw [hb] at hb'
  cases hb'
  refine sibufBlock_returns fun t => ?_
  refine (readNode_returns _ t).bind fun _ u hread => ?_
  rw [hread.1]
  refine (Ensures.lift _).bind fun name v hname => ?_
  refine (Ensures.lift _).bind fun varFlag w hflag => ?_
  unfold Srcinv.Analysis.getVarSinode
  rw [hname.1, hflag.1, Option.bind_some]
  cases varFlag with
  | external =>
    cases flag with
    | true => exact (hst.global _ _ _ name w).imp fun p _ hp => by rw [hp, hst.builtin]; rfl
    | false => exact Ensures.pure rfl
  | global => exact globalSearch_returns hst _ _ _
  | static => exact staticSearch_returns hst _ _ _
  | «local» => exact Ensures.pure rfl

/-! ## Blocks elsewhere -/

/-- `do_sibuf_eh` at a fault in sibuf `b`: loading it is all that is needed. -/
def doSibufEh (E : LookupEnv) (b : Nat) : Prog SibufUsers Unit := E.sibufBlock b (pure ())

/-- `si_expr_location`, with the place of an expression that can have one. -/
def siExprLocation (E : LookupEnv) (expr : Nat) (locus : Option Nat) :
    Prog SibufUsers (Option Nat) := do
  let b ← liftM (E.sibufOf expr)
  E.sibufBlock b (E.readNode locus)

/-- A fault leaves the thread with the sibufs it had, as `touch_keeps` asks. -/
theorem doSibufEh_keeps (b : Nat) : KeepsView (heldBy E.user) (E.doSibufEh b) :=
  sibufBlock_keeps (KeepsView.pure ())

theorem siExprLocation_keeps (expr : Nat) (locus : Option Nat) :
    KeepsView (heldBy E.user) (E.siExprLocation expr locus) :=
  (lift_keeps _).bind fun _ => sibufBlock_keeps (readNode_keeps locus)

end LookupEnv

end Srcinv.Analysis
