import Srcinv.Lib.PathWalk
import Srcinv.Analysis.TraceOrder

/-!
# The functions behind an SSA name (`call_ssaname` in `analysis/gcc/c.cc`)

The operand of an indirect call is an SSA name.  The walk goes from the name to its definition, and
through the arguments of a phi to other names; it keeps the names that it is in on a stack, and
goes back from a name that is there.  A name without a variable is pushed and never popped.

* `callSsaname_passes` — what a call from a phi does when the walk comes back.
* `callSsaname_met` — a call that leaves the stack as it was has walked so.
* `callSsaname_exact` — the stack is as it was, no `BUG_ON` fires and every function is found,
  exactly when `CallMet` holds.
-/

namespace Srcinv.Analysis

open Srcinv.Lib
open TargetField (Locals getComponentRefVnl)

section

variable (st : TraceStore) (loc : Locals)

/-! ## The graph of definitions -/

/-- The SSA names among the arguments of the phi that defines a name. -/
def phiArgs (n : Nat) : List Nat :=
  match (st.ssa n).defStmt.map st.gimple with
  | some (.phi args) => args.filterMap fun
    | .ssaName a => some a
    | _ => none
  | _ => []

/-- The right side of the assignment that defines a name. -/
def defRhs1 (n : Nat) : Option Tree :=
  match (st.ssa n).defStmt.map st.gimple with
  | some (.assign _ _ rhs1) => rhs1
  | _ => none

/-- A phi argument. -/
def PhiArg (n a : Nat) : Prop := a ∈ phiArgs st n

/-- The entry that a declaration gets in a list of callees. -/
def FuncEntry (n value valueFlag : Nat) : Prop :=
  ∃ r, getFuncSinode st.toSinodeStore (st.resfile n) (st.decl n) true = some r ∧
    match r with
    | none => value = n ∧ valueFlag = 1
    | some p => value = st.id p ∧ valueFlag = 0

/-- The definition takes the address of a function, or loads a variable or a field whose possible
    values name it. -/
inductive Names (sn : Nat) (possible : Nat → List PossibleList) : Tree → Nat → Nat → Prop
  | address {op : Tree} {n value valueFlag : Nat} (h : gimpleCallAddrFndecl op = some n)
    (hv : FuncEntry st n value valueFlag) : Names sn possible (.addrExpr op) value valueFlag
  | loaded {op vn value : Nat} (h : getTargetVarNode st sn op = some (some vn))
    (hv : funcValues possible vn value) : Names sn possible (.varDecl op) value 0
  | field {op vnl value : Nat}
    (h : getComponentRefVnl st.toFieldGraph loc (st.componentRef op) = some (some vnl))
    (hv : funcValues possible vnl value) : Names sn possible (.componentRef op) value 0

/-- What is asked of a call of `call_ssaname` from a statement: it comes back with an empty stack
    again, and each function that the operand leads to is a callee. -/
def CallRight (sn gs callOp : Nat) (s : TraceState) : Prop :=
  ∃ l s', callSsaname st loc sn gs callOp false [] s = some (l, s') ∧ l.1 = [] ∧
    ∀ n rhs1 value valueFlag, Relation.ReflTransGen (PhiArg st) callOp n →
      defRhs1 st n = some rhs1 → Names st loc sn s.possible rhs1 value valueFlag →
      Listed (s'.fns sn).callees value valueFlag

/-! ## What is read at a name -/

/-- The action for a variable or a field that is loaded. -/
def readActs (sn gs : Nat) (r : Option (Option Nat)) : Option (List Act) :=
  r.map fun vn => vn.elim [] fun vn => [.possibleOf sn gs vn]

/-- The actions of `call_ssaname_gassign`; `none` is a failed lookup. -/
def rhsActs (sn gs : Nat) : Option Tree → Option (List Act)
  | some (.componentRef op) =>
    readActs sn gs (getComponentRefVnl st.toFieldGraph loc (st.componentRef op))
  | some (.varDecl op) => readActs sn gs (getTargetVarNode st sn op)
  | some (.addrExpr op) => some ((gimpleCallAddrFndecl op).elim [] fun n => [.funcDecl sn gs n])
  | _ => some []

/-- The actions for the variable of a name. -/
def varActs (sn gs : Nat) : Option Tree → Option (List Act)
  | some (.varDecl op) => readActs sn gs (getTargetVarNode st sn op)
  | _ => some []

/-- What the name leads to is found: the variable or the field that its definition loads, its own
    variable, and each function among their values. -/
structure NameFound (sn gs : Nat) (possible : Nat → List PossibleList) (n : Nat) : Prop where
  rhs : ∃ as, rhsActs st loc sn gs (defRhs1 st n) = some as ∧
    ∀ a ∈ as, a.Ok st.toFuncStore (funcValues possible)
  var : ∃ as, varActs st sn gs (st.ssa n).var = some as ∧
    ∀ a ∈ as, a.Ok st.toFuncStore (funcValues possible)

/-- The name is found and is popped. -/
structure NamePasses (sn gs : Nat) (possible : Nat → List PossibleList) (n : Nat) : Prop where
  found : NameFound st loc sn gs possible n
  popped : (st.ssa n).var.isSome

/-- What the actions add. -/
def ActsAdd (possible : Nat → List PossibleList) (r : Option (List Act))
    (x : Side × Nat × Nat × Nat) : Prop :=
  ∃ as, r = some as ∧ ∃ a ∈ as, a.Adds st.toFuncStore (funcValues possible) x

/-- What is added at a name. -/
def NameAdds (sn gs : Nat) (possible : Nat → List PossibleList) (n : Nat)
    (x : Side × Nat × Nat × Nat) : Prop :=
  ActsAdd st possible (rhsActs st loc sn gs (defRhs1 st n)) x ∨
    ActsAdd st possible (varActs st sn gs (st.ssa n).var) x

/-- **The condition**: what the names lead to is found; each name that is reached as an argument of
    a phi has a variable; and no path of arguments without repetition fills the stack. -/
structure CallMet (sn gs callOp : Nat) (s : TraceState) : Prop where
  found : ∀ n, Relation.ReflTransGen (PhiArg st) callOp n → NameFound st loc sn gs s.possible n
  vars : ∀ n, Relation.TransGen (PhiArg st) callOp n → (st.ssa n).var.isSome
  shallow : ¬ TooDeep (PhiArg st) (SSANAME_DEPTH - 1) callOp

/-! ## The call, one level deep -/

/-- The loop of `call_ssaname_gphi` over the arguments that are SSA names. -/
def callArgs (sn gs : Nat) {start : List Nat} (args : List Nat) (l : Above start) :
    TraceM (Above start) :=
  args.foldlM (fun l a => do
    let l' ← callSsaname st loc sn gs a true l.1
    pure ⟨l'.1, Nat.le_trans l.2 (l'.2 rfl)⟩) l

end

variable {st : TraceStore} {loc : Locals} {sn gs n : Nat} {flag : Bool} {ssanameNode : List Nat}

/-- **One level of the walk.** -/
theorem callSsaname_eq (hroom : ¬ (flag = true ∧ SSANAME_DEPTH - 1 ≤ ssanameNode.length))
    (hnew : ¬ (flag = true ∧ n ∈ ssanameNode)) :
    callSsaname st loc sn gs n flag ssanameNode = (do
      callSsanameGassign st loc sn gs (defRhs1 st n)
      let after ← callArgs st loc sn gs (phiArgs st n)
        (⟨_, Nat.le_refl _⟩ : Above (ssanameStart flag ssanameNode n))
      ssanameEnd st sn gs n flag ssanameNode after) := by
  rw [callSsaname, dif_neg hroom, if_neg hnew]
  dsimp only
  split
  · rename_i rhs1 hdef
    simp only [defRhs1, phiArgs, hdef]
    rfl
  · rename_i args hdef
    simp only [defRhs1, phiArgs, hdef, callArgs, List.foldlM_filterMap]
    refine congrArg (· >>= _) (congrArg (fun f => List.foldlM f _ args) ?_)
    funext l phiOp
    cases phiOp <;> rfl
  · rename_i hassign hphi
    have hrhs : defRhs1 st n = none := by
      unfold defRhs1
      split
      · exact absurd ‹_› (hassign _ _ _)
      · rfl
    have hargs : phiArgs st n = [] := by
      unfold phiArgs
      split
      · exact absurd ‹_› (hphi _)
      · rfl
    rw [hrhs, hargs]
    rfl

/-! ## Actions that read -/

/-- The actions of a walk change no possible values. -/
def Reads (as : List Act) : Prop := ∀ a ∈ as, ∀ possible, a.addTo possible = possible

theorem reads_readActs {r : Option (Option Nat)} {as : List Act}
    (h : readActs sn gs r = some as) : Reads as := by
  obtain ⟨vn, -, rfl⟩ := Option.map_eq_some_iff.mp h
  cases vn with
  | none => exact fun a ha => (by cases ha)
  | some vn =>
    intro a ha possible
    obtain rfl := List.mem_singleton.mp ha
    rfl

theorem reads_rhsActs {rhs1 : Option Tree} {as : List Act}
    (h : rhsActs st loc sn gs rhs1 = some as) : Reads as := by
  unfold rhsActs at h
  split at h
  · exact reads_readActs h
  · exact reads_readActs h
  · rename_i op
    obtain rfl := Option.some.inj h
    cases gimpleCallAddrFndecl op with
    | none => exact fun a ha => (by cases ha)
    | some n =>
      intro a ha possible
      obtain rfl := List.mem_singleton.mp ha
      rfl
  · obtain rfl := Option.some.inj h
    exact fun a ha => (by cases ha)

theorem reads_varActs {var : Option Tree} {as : List Act}
    (h : varActs st sn gs var = some as) : Reads as := by
  unfold varActs at h
  split at h
  · exact reads_readActs h
  · obtain rfl := Option.some.inj h
    exact fun a ha => (by cases ha)

theorem Reads.possibleAfter {as : List Act} (h : Reads as) (possible : Nat → List PossibleList) :
    possibleAfter as possible = possible := by
  induction as with
  | nil => rfl
  | cons a as ih =>
    show Srcinv.Analysis.possibleAfter as (a.addTo possible) = possible
    rw [h a List.mem_cons_self]
    exact ih fun b hb => h b (List.mem_cons_of_mem a hb)

theorem emits_nil : Emits st (pure ()) (some ((), [])) := fun _ => rfl

theorem emits_readActs (r : Option (Option Nat)) :
    Emits st (do
      match ← liftM r with
      | none => pure ()
      | some vn => addPossibleCalleeOf st.toFuncStore sn gs vn)
      ((readActs sn gs r).map fun as => ((), as)) := by
  cases r with
  | none => exact fun s => rfl
  | some vn =>
    cases vn with
    | none => exact emits_nil
    | some vn => exact emits_act (.possibleOf sn gs vn)

theorem emits_callAddrExpr (op : Tree) : Emits st (callAddrExpr st sn gs op)
    (some ((), (gimpleCallAddrFndecl op).elim [] fun n => [.funcDecl sn gs n])) := by
  unfold callAddrExpr
  cases gimpleCallAddrFndecl op with
  | none => exact emits_nil
  | some n => exact emits_act (.funcDecl sn gs n)

/-- The actions of the definition of a name. -/
theorem emits_rhsActs (rhs1 : Option Tree) :
    Emits st (callSsanameGassign st loc sn gs rhs1)
      ((rhsActs st loc sn gs rhs1).map fun as => ((), as)) := by
  unfold callSsanameGassign
  split
  · exact emits_readActs _
  · exact emits_readActs _
  · exact emits_callAddrExpr _
  · rename_i hfield hvar haddr
    have hnone : rhsActs st loc sn gs rhs1 = some [] := by
      unfold rhsActs
      split
      · exact absurd rfl (hfield _)
      · exact absurd rfl (hvar _)
      · exact absurd rfl (haddr _)
      · rfl
    rw [hnone]
    exact emits_nil

/-- The actions of the variable of a name. -/
theorem emits_varActs (var : Tree) :
    Emits st (ssanameVar st sn gs var) ((varActs st sn gs (some var)).map fun as => ((), as)) := by
  unfold ssanameVar varActs
  cases var with
  | varDecl op => exact emits_readActs _
  | _ => exact emits_nil

/-! ## What a step does -/

/-- With these possible values the step comes back with `r` and adds the entries in `D`. -/
def Does {α : Type} (possible : Nat → List PossibleList) (F : TraceM α) (r : α)
    (D : Side × Nat × Nat × Nat → Prop) : Prop :=
  ∀ s, s.possible = possible → ∃ s', F s = some (r, s') ∧ s'.possible = possible ∧
    Grows D s.fns s'.fns

variable {possible : Nat → List PossibleList} {α β : Type} {D D' : Side × Nat × Nat × Nat → Prop}

theorem does_pure (r : α) : Does possible (pure r : TraceM α) r fun _ => False :=
  fun s hs => ⟨s, rfl, hs, grows_accumulates.refl s.fns⟩

theorem Does.bind {F : TraceM α} {G : α → TraceM β} {r : α} {r' : β} (hF : Does possible F r D)
    (hG : Does possible (G r) r' D') : Does possible (F >>= G) r' fun x => D x ∨ D' x := by
  intro s hs
  obtain ⟨s₁, hx, hs₁, hgrows⟩ := hF s hs
  obtain ⟨s₂, hx', hs₂, hgrows'⟩ := hG s₁ hs₁
  refine ⟨s₂, ?_, hs₂, grows_accumulates.trans _ _ _ _ _ hgrows hgrows'⟩
  show (F s).bind (fun out => G out.1 out.2) = _
  rw [hx]
  exact hx'

theorem Does.congr {F : TraceM α} {r : α} (h : Does possible F r D) (hD : ∀ x, D x ↔ D' x) :
    Does possible F r D' := by
  intro s hs
  obtain ⟨s', hx, hs', hgrows⟩ := h s hs
  exact ⟨s', hx, hs', fun x => (hgrows x).trans (or_congr_right (hD x))⟩

/-- Actions that read what is there do what each of them adds. -/
theorem does_acts {F : TraceM Unit} {r : Option (List Act)}
    (hF : Emits st F (r.map fun as => ((), as))) (hreads : ∀ as, r = some as → Reads as)
    (hok : ∃ as, r = some as ∧ ∀ a ∈ as, a.Ok st.toFuncStore (funcValues possible)) :
    Does possible F () (ActsAdd st possible r) := by
  obtain ⟨as, hr, hok⟩ := hok
  intro s hs
  obtain ⟨s', hx⟩ := @runActs_of_ok st as s fun a ha => by
    rw [(hreads as hr).possibleAfter, hs]
    exact hok a ha
  have hs' : s'.possible = possible := by
    rw [runActs_possible hx, (hreads as hr).possibleAfter, hs]
  refine ⟨s', ?_, hs', fun x => ?_⟩
  · rw [hF s, hr]
    simp only [Option.map_some, Option.bind_some, hx]
  · have hgrows := runActs_grows hx x
    rw [hs, hs'] at hgrows
    have hadds : ActsAdd st possible r x ↔
        ∃ a ∈ as, a.Adds st.toFuncStore (funcValues possible) x := by
      simp only [ActsAdd, hr, Option.some.injEq, exists_eq_left']
    rw [hadds]
    exact ⟨hgrows.1, hgrows.2⟩

/-- What a step with actions that read has found when it comes back. -/
theorem found_of_emits {F : TraceM Unit} {r : Option (List Act)} {s s' : TraceState} {u : Unit}
    (hF : Emits st F (r.map fun as => ((), as))) (hreads : ∀ as, r = some as → Reads as)
    (h : F s = some (u, s')) : s'.possible = s.possible ∧
      ∃ as, r = some as ∧ ∀ a ∈ as, a.Ok st.toFuncStore (funcValues s.possible) := by
  rw [hF s] at h
  obtain ⟨⟨v, as⟩, hr, h⟩ := Option.bind_eq_some_iff.mp h
  obtain ⟨as, hr, heq⟩ := Option.map_eq_some_iff.mp hr
  cases heq
  obtain ⟨s₁, hx, heq⟩ := Option.map_eq_some_iff.mp h
  cases heq
  refine ⟨?_, as, hr, ok_of_runActs hx⟩
  rw [runActs_possible hx, (hreads as hr).possibleAfter]

/-! ## A walk that comes back -/

/-- The stack after a call that leaves it as it was. -/
def unchanged (l : List Nat) {flag : Bool} :
    { l' : List Nat // flag = true → l.length ≤ l'.length } :=
  ⟨l, fun _ => Nat.le_refl _⟩

/-- A call from a phi has pushed its name. -/
theorem Above.lt {l : List Nat} (after : Above (ssanameStart flag l n)) (hf : flag = true) :
    l.length < after.1.length := by
  have hlen : (ssanameStart flag l n).length = l.length + 1 := by
    rw [show ssanameStart flag l n = l ++ [n] from if_pos hf, List.length_append,
      List.length_singleton]
  have hle := after.2
  omega

theorem ssanameEnd_none {l : List Nat} {after : Above (ssanameStart flag l n)}
    (hvar : (st.ssa n).var = none) (hle : flag = true → l.length ≤ after.1.length) :
    ssanameEnd st sn gs n flag l after = pure ⟨after.1, hle⟩ := by
  unfold ssanameEnd
  rw [hvar]

theorem ssanameEnd_some {l : List Nat} {after : Above (ssanameStart flag l n)} {var : Tree}
    (hvar : (st.ssa n).var = some var)
    (hle : flag = true → l.length ≤ (if flag then after.1.dropLast else after.1).length) :
    ssanameEnd st sn gs n flag l after = (do
      ssanameVar st sn gs var
      if flag ∧ after.1.getLast? ≠ some n then failure
      else pure ⟨if flag then after.1.dropLast else after.1, hle⟩) := by
  unfold ssanameEnd
  rw [hvar]

/-- The end of a call from a phi pops the name, when the name has a variable. -/
theorem ssanameEnd_pops {l : List Nat} {after : Above (ssanameStart true l n)}
    (hn : NamePasses st loc sn gs possible n) (hafter : after.1 = l ++ [n]) :
    Does possible (ssanameEnd st sn gs n true l after) (unchanged l)
      (ActsAdd st possible (varActs st sn gs (st.ssa n).var)) := by
  obtain ⟨var, hvar⟩ := Option.isSome_iff_exists.mp hn.popped
  have hfound := hn.found.var
  have hdrop : (if true then after.1.dropLast else after.1) = l := by
    rw [if_pos rfl, hafter, List.dropLast_concat]
  have hle : true = true → l.length ≤ (if true then after.1.dropLast else after.1).length :=
    fun _ => by rw [hdrop]
  have hpop : (⟨_, hle⟩ : { l' : List Nat // true = true → l.length ≤ l'.length }) =
      unchanged l := Subtype.ext hdrop
  have hlast : ¬ (true = true ∧ after.1.getLast? ≠ some n) := by
    rw [hafter, List.getLast?_concat]
    exact fun h => h.2 rfl
  rw [ssanameEnd_some hvar hle, if_neg hlast, hpop]
  rw [hvar] at hfound ⊢
  have hacts := does_acts (emits_varActs var) (fun as h => reads_varActs h) hfound
  exact (hacts.bind (does_pure (unchanged l))).congr fun x => iff_of_eq (or_false _)

/-- The end of a call from a statement has nothing to pop. -/
theorem ssanameEnd_top {l : List Nat} {after : Above (ssanameStart false l n)}
    (hn : NameFound st loc sn gs possible n) :
    Does possible (ssanameEnd st sn gs n false l after) ⟨after.1, fun h => (by cases h)⟩
      (ActsAdd st possible (varActs st sn gs (st.ssa n).var)) := by
  have hfound := hn.var
  cases hvar : (st.ssa n).var with
  | none =>
    rw [ssanameEnd_none hvar fun h => (by cases h)]
    refine (does_pure _).congr fun x => ⟨False.elim, ?_⟩
    rintro ⟨as, has, a, ha, -⟩
    cases has
    cases ha
  | some var =>
    rw [hvar] at hfound
    rw [ssanameEnd_some hvar fun h => (by cases h), if_neg fun h => (by cases h.1)]
    have hacts := does_acts (emits_varActs var) (fun as h => reads_varActs h) hfound
    exact (hacts.bind (does_pure (⟨after.1, fun h => (by cases h)⟩ :
      { l' : List Nat // false = true → l.length ≤ l'.length }))).congr fun x =>
      iff_of_eq (or_false _)

/-- The loop over the arguments, when each call leaves the stack as it was. -/
theorem callArgs_does {start : List Nat} {args : List Nat} {l : Above start}
    {D : Nat → Side × Nat × Nat × Nat → Prop}
    (h : ∀ a ∈ args, Does possible (callSsaname st loc sn gs a true l.1) (unchanged l.1) (D a)) :
    Does possible (callArgs st loc sn gs args l) l fun x => ∃ a ∈ args, D a x := by
  induction args with
  | nil => exact (does_pure l).congr fun x => by simp
  | cons a args ih =>
    have ha := h a List.mem_cons_self
    have hargs := ih fun b hb => h b (List.mem_cons_of_mem a hb)
    have hcons : callArgs st loc sn gs (a :: args) l = ((do
        let l' ← callSsaname st loc sn gs a true l.1
        pure ⟨l'.1, Nat.le_trans l.2 (l'.2 rfl)⟩) >>= callArgs st loc sn gs args) := rfl
    rw [hcons]
    refine ((ha.bind (does_pure l)).bind hargs).congr fun x => ?_
    simp only [List.mem_cons, exists_eq_or_imp, or_false]

/-- **A walk that comes back** leaves the stack as it was and adds what is found at each name that
it meets. -/
theorem callSsaname_passes {l : List Nat}
    (h : Walks (PhiArg st) (NamePasses st loc sn gs possible) (SSANAME_DEPTH - 1) l n) :
    Does possible (callSsaname st loc sn gs n true l) (unchanged l) fun x =>
      ∃ b, Meets (PhiArg st) l n b ∧ NameAdds st loc sn gs possible b x := by
  induction h with
  | @seen l n hroom hmem =>
    rw [callSsaname, dif_neg fun h => Nat.not_le.mpr hroom h.2, if_pos ⟨rfl, hmem⟩]
    refine (does_pure _).congr fun x => ⟨False.elim, ?_⟩
    rintro ⟨b, hb, -⟩
    cases hb with
    | here hno => exact hno hmem
    | next hno => exact hno hmem
  | @new l n hroom hno hn _ ih =>
    rw [callSsaname_eq (fun h => Nat.not_le.mpr hroom h.2) fun h => hno h.2]
    refine ((does_acts (emits_rhsActs _) (fun as h => reads_rhsActs h) hn.found.rhs).bind
      ((callArgs_does ih).bind (ssanameEnd_pops hn rfl))).congr fun x => ?_
    constructor
    · rintro (hx | ⟨a, ha, b, hb, hx⟩ | hx)
      · exact ⟨n, .here hno, Or.inl hx⟩
      · exact ⟨b, .next hno ha hb, hx⟩
      · exact ⟨n, .here hno, Or.inr hx⟩
    · rintro ⟨b, hb, hx⟩
      cases hb with
      | here => exact hx.imp id Or.inr
      | next _ hab hb => exact Or.inr (Or.inl ⟨_, hab, b, hb, hx⟩)

/-! ## What a call that comes back has met -/

theorem bind_eq_some {F : TraceM α} {G : α → TraceM β} {s : TraceState} {out : β × TraceState}
    (h : (F >>= G) s = some out) : ∃ r s₁, F s = some (r, s₁) ∧ G r s₁ = some out := by
  obtain ⟨⟨r, s₁⟩, hx, h⟩ := Option.bind_eq_some_iff.mp h
  exact ⟨r, s₁, hx, h⟩

/-- What the end of a call has found, and the names that it leaves on the stack. -/
theorem ssanameEnd_inv {l : List Nat} {after : Above (ssanameStart flag l n)}
    {s s' : TraceState} {l' : { l' : List Nat // flag = true → l.length ≤ l'.length }}
    (h : ssanameEnd st sn gs n flag l after s = some (l', s')) :
    s'.possible = s.possible ∧
      (∃ as, varActs st sn gs (st.ssa n).var = some as ∧
        ∀ a ∈ as, a.Ok st.toFuncStore (funcValues s.possible)) ∧
      (l'.1 = after.1 ∧ (flag = true → (st.ssa n).var = none) ∨
        flag = true ∧ (st.ssa n).var.isSome ∧ l'.1 = after.1.dropLast) := by
  cases hvar : (st.ssa n).var with
  | none =>
    rw [ssanameEnd_none hvar fun hf => Nat.le_of_lt (after.lt hf)] at h
    obtain ⟨rfl, rfl⟩ := Prod.mk.inj (Option.some.inj h)
    exact ⟨rfl, ⟨[], rfl, fun a ha => (by cases ha)⟩, Or.inl ⟨rfl, fun _ => rfl⟩⟩
  | some var =>
    rw [ssanameEnd_some hvar fun hf => by
      rw [if_pos hf, List.length_dropLast]
      have hlt := after.lt hf
      omega] at h
    obtain ⟨u, s₁, hx, h⟩ := bind_eq_some h
    obtain ⟨hs, hfound⟩ := found_of_emits (emits_varActs var) (fun as h => reads_varActs h) hx
    split at h
    · cases h
    · obtain ⟨rfl, rfl⟩ := Prod.mk.inj (Option.some.inj h)
      refine ⟨hs, hfound, ?_⟩
      cases flag with
      | false => exact Or.inl ⟨rfl, fun h => (by cases h)⟩
      | true => exact Or.inr ⟨rfl, rfl, rfl⟩

/-- What a call from a phi with these possible values has met, as far as it is told here: names
    are only added to the stack, and where none is left there the walk came back. -/
def Met (st : TraceStore) (loc : Locals) (sn gs : Nat) (n : Nat) (l : List Nat) : Prop :=
  ∀ s l' s', callSsaname st loc sn gs n true l s = some (l', s') → s'.possible = s.possible ∧
    l <+: l'.1 ∧
    (l'.1 = l → Walks (PhiArg st) (NamePasses st loc sn gs s.possible) (SSANAME_DEPTH - 1) l n)

/-- The loop over the arguments. -/
theorem callArgs_met {start : List Nat} {args : List Nat} {l l' : Above start}
    {s s' : TraceState} (hmet : ∀ a l, start.length ≤ l.length → Met st loc sn gs a l)
    (h : callArgs st loc sn gs args l s = some (l', s')) : s'.possible = s.possible ∧
      l.1 <+: l'.1 ∧ (l'.1 = l.1 → ∀ a ∈ args,
        Walks (PhiArg st) (NamePasses st loc sn gs s.possible) (SSANAME_DEPTH - 1) l.1 a) := by
  induction args generalizing l s with
  | nil =>
    cases h
    exact ⟨rfl, List.prefix_rfl, fun _ a ha => (by cases ha)⟩
  | cons a args ih =>
    obtain ⟨l₁, s₁, hstep, h⟩ := bind_eq_some h
    obtain ⟨l₂, s₂, hcall, hpure⟩ := bind_eq_some hstep
    obtain ⟨rfl, rfl⟩ := Prod.mk.inj (Option.some.inj hpure)
    obtain ⟨hs, hpre, hwalk⟩ := hmet a l.1 l.2 s l₂ s₂ hcall
    obtain ⟨hs', hpre', hwalks⟩ := ih h
    rw [hs] at hs' hwalks
    refine ⟨hs', hpre.trans hpre', fun heq => ?_⟩
    have hback : l.1 = l₂.1 := by
      refine hpre.eq_of_length (Nat.le_antisymm hpre.length_le ?_)
      exact hpre'.length_le.trans (Nat.le_of_eq (congrArg List.length heq))
    intro b hb
    obtain rfl | hb := List.mem_cons.mp hb
    · exact hwalk hback.symm
    · rw [hback]
      exact hwalks (heq.trans hback) b hb

/-- **A call from a phi that leaves the stack as it was has walked.** -/
theorem callSsaname_met {k : Nat} {l : List Nat} (hk : SSANAME_DEPTH ≤ l.length + k) :
    Met st loc sn gs n l := by
  induction k generalizing n l with
  | zero =>
    intro s l' s' h
    rw [callSsaname, dif_pos ⟨rfl, by omega⟩] at h
    cases h
  | succ k ih =>
    intro s l' s' h
    by_cases hroom : SSANAME_DEPTH - 1 ≤ l.length
    · rw [callSsaname, dif_pos ⟨rfl, hroom⟩] at h
      cases h
    by_cases hmem : n ∈ l
    · rw [callSsaname, dif_neg fun h => hroom h.2, if_pos ⟨rfl, hmem⟩] at h
      cases h
      exact ⟨rfl, List.prefix_rfl, fun _ => .seen (Nat.lt_of_not_le hroom) hmem⟩
    rw [callSsaname_eq (fun h => hroom h.2) fun h => hmem h.2] at h
    obtain ⟨u, s₁, hrhs, h⟩ := bind_eq_some h
    obtain ⟨after, s₂, hargs, hend⟩ := bind_eq_some h
    obtain ⟨hs₁, hfound⟩ := found_of_emits (emits_rhsActs _) (fun as h => reads_rhsActs h) hrhs
    obtain ⟨hs₂, hpre, hwalks⟩ := callArgs_met (fun a l hl => ih (by
      rw [ssanameStart, if_pos rfl, List.length_append, List.length_singleton] at hl
      omega)) hargs
    obtain ⟨hs', hvar, hlast⟩ := ssanameEnd_inv hend
    rw [hs₁] at hs₂ hwalks
    rw [hs₂] at hs' hvar
    have hpre : l ++ [n] <+: after.1 := hpre
    obtain ⟨heq, hnone⟩ | ⟨-, hpopped, heq⟩ := hlast
    · have hlt := hpre.length_le
      rw [List.length_append, List.length_singleton] at hlt
      refine ⟨hs', heq ▸ (List.prefix_append l [n]).trans hpre, fun hl => ?_⟩
      rw [← heq, hl] at hlt
      omega
    · have hlen := hpre.length_le
      have hdrop : after.1.dropLast.length = after.1.length - 1 := List.length_dropLast
      rw [List.length_append, List.length_singleton] at hlen
      refine ⟨hs', ?_, fun hl => ?_⟩
      · rw [heq]
        refine List.prefix_of_prefix_length_le ((List.prefix_append l [n]).trans hpre)
          (List.dropLast_prefix _) (by omega)
      · have hback : l ++ [n] = after.1 := by
          refine hpre.eq_of_length ?_
          rw [← heq, hl] at hdrop
          rw [List.length_append, List.length_singleton]
          omega
        exact .new (Nat.lt_of_not_le hroom) hmem ⟨⟨hfound, hvar⟩, hpopped⟩ (hwalks hback.symm)

/-! ## The call from a statement -/

/-- What a definition names is added at its name. -/
theorem Names.adds {rhs1 : Tree} {value valueFlag : Nat}
    (h : Names st loc sn possible rhs1 value valueFlag) (hn : NameFound st loc sn gs possible n)
    (hrhs : defRhs1 st n = some rhs1) :
    NameAdds st loc sn gs possible n (.callees, sn, value, valueFlag) := by
  obtain ⟨as, has, hok⟩ := hn.rhs
  rw [hrhs] at has
  refine Or.inl ⟨as, by rw [hrhs]; exact has, ?_⟩
  have hread : ∀ {vn : Nat}, as = [.possibleOf sn gs vn] → funcValues possible vn value →
      valueFlag = 0 → ∃ a ∈ as,
        a.Adds st.toFuncStore (funcValues possible) (.callees, sn, value, valueFlag) := by
    rintro vn rfl hv rfl
    obtain ⟨p, hp, -⟩ := hok _ List.mem_cons_self value hv
    exact ⟨_, List.mem_cons_self, value, hv, p, hp, rfl, (st.byId_id value p hp).2.symm, rfl⟩
  cases h with
  | @address op n _ _ hop hv =>
    simp only [rhsActs, hop, Option.elim_some, Option.some.injEq] at has
    subst has
    obtain ⟨r, hr, hentry⟩ := hv
    refine ⟨_, List.mem_cons_self, r, hr, ?_⟩
    cases r with
    | none => exact ⟨rfl, hentry⟩
    | some p => exact ⟨rfl, hentry⟩
  | loaded hvn hv =>
    simp only [rhsActs, readActs, hvn, Option.map_some, Option.elim_some, Option.some.injEq] at has
    exact hread has.symm hv rfl
  | field hvnl hv =>
    simp only [rhsActs, readActs, hvnl, Option.map_some, Option.elim_some, Option.some.injEq] at has
    exact hread has.symm hv rfl

/-- The operand is looked at without a push. -/
theorem callSsaname_top (st : TraceStore) (loc : Locals) (sn gs callOp : Nat) :
    callSsaname st loc sn gs callOp false [] = (do
      callSsanameGassign st loc sn gs (defRhs1 st callOp)
      let after ← callArgs st loc sn gs (phiArgs st callOp)
        (⟨_, Nat.le_refl _⟩ : Above (ssanameStart false [] callOp))
      ssanameEnd st sn gs callOp false [] after) :=
  callSsaname_eq (fun h => (by cases h.1)) fun h => (by cases h.1)

theorem ssaname_depth_pos : 0 < SSANAME_DEPTH - 1 := by decide

/-- A call that does what is asked of it has met the condition. -/
theorem CallRight.met {callOp : Nat} {s : TraceState} (h : CallRight st loc sn gs callOp s) :
    CallMet st loc sn gs callOp s := by
  obtain ⟨l, s', h, hl, -⟩ := h
  rw [callSsaname_top] at h
  obtain ⟨u, s₁, hrhs, h⟩ := bind_eq_some h
  obtain ⟨after, s₂, hargs, hend⟩ := bind_eq_some h
  obtain ⟨hs₁, hfound⟩ := found_of_emits (emits_rhsActs _) (fun as h => reads_rhsActs h) hrhs
  obtain ⟨hs₂, -, hwalks⟩ := callArgs_met
    (fun a l _ => callSsaname_met (k := SSANAME_DEPTH) (Nat.le_add_left _ _)) hargs
  obtain ⟨-, hvar, hlast⟩ := ssanameEnd_inv hend
  have hafter : after.1 = [] := by
    obtain ⟨hafter, -⟩ | ⟨hflag, -⟩ := hlast
    · exact hafter.symm.trans hl
    · cases hflag
  rw [hs₁] at hs₂ hwalks
  rw [hs₂] at hvar
  have hwalks : ∀ a, PhiArg st callOp a →
      Walks (PhiArg st) (NamePasses st loc sn gs s.possible) (SSANAME_DEPTH - 1) [] a :=
    hwalks hafter
  obtain ⟨hpass, hdeep⟩ := (walks_iff ssaname_depth_pos).mp hwalks
  refine ⟨fun n hn => ?_, fun n hn => (hpass n hn).popped, hdeep⟩
  obtain rfl | hn := Relation.reflTransGen_iff_eq_or_transGen.mp hn
  · exact ⟨hfound, hvar⟩
  · exact (hpass n hn).found

/-- Under the condition the call does what is asked of it. -/
theorem CallMet.right {callOp : Nat} {s : TraceState} (h : CallMet st loc sn gs callOp s) :
    CallRight st loc sn gs callOp s := by
  have hwalks : ∀ a, PhiArg st callOp a →
      Walks (PhiArg st) (NamePasses st loc sn gs s.possible) (SSANAME_DEPTH - 1) [] a :=
    (walks_iff ssaname_depth_pos).mpr
      ⟨fun n hn => ⟨h.found n hn.to_reflTransGen, h.vars n hn⟩, h.shallow⟩
  have htop := h.found callOp .refl
  have hacts := does_acts (emits_rhsActs (defRhs1 st callOp)) (fun as h => reads_rhsActs h)
    htop.rhs
  have hargs := callArgs_does (l := (⟨_, Nat.le_refl _⟩ : Above (ssanameStart false [] callOp)))
    fun a ha => callSsaname_passes (hwalks a ha)
  have hwalk := hargs.bind (ssanameEnd_top htop)
  obtain ⟨s', hx, -, hgrows⟩ := hacts.bind (G := fun _ => _) hwalk s rfl
  rw [← callSsaname_top] at hx
  refine ⟨_, s', hx, rfl, fun n rhs1 value valueFlag hn hrhs hnames => ?_⟩
  have hadds := hnames.adds (h.found n hn) hrhs
  refine (hgrows (.callees, sn, value, valueFlag)).mpr (Or.inr ?_)
  obtain rfl | ⟨a, ha, han⟩ := Relation.ReflTransGen.cases_head hn
  · exact hadds.imp id Or.inr
  · exact Or.inr (Or.inl ⟨a, ha, n, meets_iff.mpr han, hadds⟩)

/-- **`call_ssaname`, exactly.** -/
theorem callSsaname_exact (st : TraceStore) (loc : Locals) (sn gs callOp : Nat) (s : TraceState) :
    CallRight st loc sn gs callOp s ↔ CallMet st loc sn gs callOp s :=
  ⟨CallRight.met, CallMet.right⟩

/-! ## A name without a variable -/

/-- In the function `a`: `cb_0 = PHI <cb_1>`, `cb_1 = PHI <_2>` and `_2 = &a`. -/
def phiStore : TraceStore where
  toFuncStore := declStore
  toFieldGraph := TargetField.noFields
  body _ := ⟨[], [(0, 0)], [], [], []⟩
  gimple := fun
    | 0 => .phi [.ssaName 1]
    | 1 => .phi [.ssaName 2]
    | _ => .assign 2 (.ssaName 2) (some (.addrExpr (.functionDecl 0)))
  ssa n := ⟨some n, if n = 2 then none else some (.varDecl 0)⟩
  varDecl _ := ⟨none, false, false, false, false, ⟨none, 0, 0⟩⟩
  varNode _ := 0
  componentRef _ := ⟨.other, none, false⟩

/-- The name `_2` stays on the stack, where the end of the call for `cb_1` meets it. -/
theorem temporary_not_popped :
    ¬ CallRight phiStore ⟨some 0, some 0⟩ 0 0 0 ⟨phiStore.noCalls, fun _ => []⟩ := by
  intro h
  have hreach : Relation.TransGen (PhiArg phiStore) 0 2 :=
    .tail (.single (b := 1) (by decide : 1 ∈ phiArgs phiStore 0))
      (by decide : 2 ∈ phiArgs phiStore 1)
  cases h.met.vars 2 hreach

end Srcinv.Analysis
