import Mathlib.Algebra.Order.Ring.Int
import Mathlib.Logic.Function.Basic
import Mathlib.Order.Bounds.Defs
import Srcinv.Analysis.FuncNode

/-!
# How deep a function is below an entry (`analysis/mark-entry.c`)

`mark_subcall_entry` labels a function with its call level and goes on with the functions that it
calls, unless the function has a label already that is as small.  Zero is no label.

* `markEntry_least` — on every call graph the label is one more than the least number of calls
  from an entry, where that fits `CALL_DEPTH_MAX`, and zero elsewhere.
-/

namespace Srcinv.Analysis

def CALL_DEPTH_BITS : Nat := 10

def CALL_DEPTH_MAX : Nat := 2 ^ CALL_DEPTH_BITS - 1

/-- The part of the src that marking reads; `idIdx` is the next id of a global function. -/
structure MarkSrc where
  fns : Nat → FuncNode
  byId : Nat → Option FuncSinode
  idIdx : Nat
  linuxKernel : Bool

variable (src : MarkSrc)

/-- The function that an entry of `callees` leads to, if it has an id and a body. -/
def calledFn (tmp : CallfList) : Option Nat :=
  if tmp.valueFlag ≠ 0 then none
  else (src.byId tmp.value).bind FuncSinode.data

/-- `mark_subcall_entry` over the `call_depth` of all functions. -/
def markSubcallEntry (fn callLevel : Nat) (callDepth : Nat → Nat) : Nat → Nat :=
  if callDepth fn ≠ 0 ∧ callDepth fn ≤ callLevel then callDepth
  else if _h : CALL_DEPTH_MAX < callLevel then callDepth
  else
    (src.fns fn).callees.foldl (fun callDepth tmp =>
      match calledFn src tmp with
      | none => callDepth
      | some subFn => markSubcallEntry subFn (callLevel + 1) callDepth)
      (Function.update callDepth fn callLevel)
  termination_by CALL_DEPTH_MAX + 1 - callLevel
  decreasing_by omega

/-- `do_mark_entry` with the flag 0: the name starts with the string. -/
def doMarkEntry (tid : Nat) (string : Name) (callDepth : Nat → Nat) : Nat → Nat :=
  match src.byId tid with
  | none => callDepth
  | some sn =>
    match sn.data with
    | none => callDepth
    | some fn =>
      if string.isPrefixOf (src.fns fn).name then markSubcallEntry src fn 1 callDepth
      else callDepth

/-- The ids of the global functions. -/
def globalIds : List Nat :=
  let first := TYPE_FUNC_GLOBAL * 2 ^ ID_VALUE_BITS
  List.range' first (src.idIdx - first)

/-- `mark_linux_kern_entry`. -/
def markLinuxKernEntry (callDepth : Nat → Nat) : Nat → Nat :=
  (globalIds src).foldl (fun callDepth tid => doMarkEntry src tid (bytesOf "__x64_sys_") callDepth)
    callDepth

/-- The loop of `mark_unknown_entry` for one id. -/
def markUnknownOne (callDepth : Nat → Nat) (id : Nat) : Nat → Nat :=
  match (src.byId id).bind FuncSinode.data with
  | none => callDepth
  | some fn =>
    if (src.fns fn).callers ≠ [] then callDepth
    else markSubcallEntry src fn 1 callDepth

/-- `mark_unknown_entry`. -/
def markUnknownEntry (callDepth : Nat → Nat) : Nat → Nat :=
  (globalIds src).foldl (markUnknownOne src) callDepth

/-- `mark_entry`. -/
def markEntry (callDepth : Nat → Nat) : Nat → Nat :=
  if src.linuxKernel then markLinuxKernEntry src callDepth
  else markUnknownEntry src callDepth

/-! ## Depth in the call graph -/

/-- An edge of the call graph. -/
def Calls (f g : Nat) : Prop := ∃ tmp ∈ (src.fns f).callees, calledFn src tmp = some g

/-- An entry function: a syscall of the Linux kernel, or else a function that nothing calls. -/
def IsEntry (f : Nat) : Prop :=
  ∃ id ∈ globalIds src, (src.byId id).bind FuncSinode.data = some f ∧
    if src.linuxKernel then (bytesOf "__x64_sys_").isPrefixOf (src.fns f).name = true
    else (src.fns f).callers = []

/-- The function is `d - 1` calls below an entry. -/
inductive EntryDepth : Nat → Nat → Prop
  | entry {f : Nat} (h : IsEntry src f) : EntryDepth f 1
  | call {f g d : Nat} (hf : EntryDepth f d) (h : Calls src f g) : EntryDepth g (d + 1)

/-- A label of at most `l`. -/
def Labelled (callDepth : Nat → Nat) (f l : Nat) : Prop := callDepth f ≠ 0 ∧ callDepth f ≤ l

/-- Everything a labelled function calls has a label that is at most one more. -/
def Relaxed (callDepth : Nat → Nat) (f : Nat) : Prop :=
  callDepth f ≠ 0 → callDepth f < CALL_DEPTH_MAX →
    ∀ g, Calls src f g → Labelled callDepth g (callDepth f + 1)

/-- What marking from a level on does: labels only fall, those that change are relaxed after
    it, and none becomes smaller than the level. -/
structure Marked (l : Nat) (callDepth callDepth' : Nat → Nat) : Prop where
  falls : ∀ g, callDepth g ≠ 0 → Labelled callDepth' g (callDepth g)
  changed : ∀ g, callDepth' g ≠ callDepth g → l ≤ callDepth' g ∧ callDepth' g ≤ CALL_DEPTH_MAX
  relaxed : ∀ g, Relaxed src callDepth g ∨ callDepth' g ≠ callDepth g → Relaxed src callDepth' g

variable {src} {l : Nat} {callDepth callDepth' callDepth'' : Nat → Nat}

theorem Labelled.falls {f m : Nat} (h : Labelled callDepth f m)
    (hf : ∀ g, callDepth g ≠ 0 → Labelled callDepth' g (callDepth g)) : Labelled callDepth' f m :=
  ⟨(hf f h.1).1, Nat.le_trans (hf f h.1).2 h.2⟩

theorem Relaxed.falls {f : Nat} (h : Relaxed src callDepth f) (hsame : callDepth' f = callDepth f)
    (hf : ∀ g, callDepth g ≠ 0 → Labelled callDepth' g (callDepth g)) :
    Relaxed src callDepth' f := by
  intro hne hlt g hg
  rw [hsame] at hne hlt ⊢
  exact (h hne hlt g hg).falls hf

theorem Marked.refl (l : Nat) (callDepth : Nat → Nat) : Marked src l callDepth callDepth where
  falls _ h := ⟨h, Nat.le_refl _⟩
  changed _ h := absurd rfl h
  relaxed _ h := h.resolve_right fun h => h rfl

theorem Marked.trans (h : Marked src l callDepth callDepth')
    (h' : Marked src l callDepth' callDepth'') : Marked src l callDepth callDepth'' where
  falls g hg := (h.falls g hg).falls h'.falls
  changed g hg := by
    by_cases hlast : callDepth'' g = callDepth' g
    · rw [hlast] at hg ⊢
      exact h.changed g hg
    · exact h'.changed g hlast
  relaxed g hg := by
    by_cases hlast : callDepth'' g = callDepth' g
    · rw [hlast] at hg
      exact h'.relaxed g (Or.inl (h.relaxed g hg))
    · exact h'.relaxed g (Or.inr hlast)

/-! ## Marking from one function -/

/-- Labels are depths of the call graph. -/
def Sound (src : MarkSrc) (callDepth : Nat → Nat) : Prop :=
  ∀ g, callDepth g ≠ 0 → EntryDepth src g (callDepth g)

section Loops

variable {β : Type*} (sub : β → Option Nat) {step : (Nat → Nat) → Nat → (Nat → Nat)}

/-- A loop that marks the functions that its elements lead to. -/
theorem marked_loop (hstep : ∀ callDepth g, Marked src l callDepth (step callDepth g) ∧
      (l ≤ CALL_DEPTH_MAX → Labelled (step callDepth g) g l))
    (bs : List β) (callDepth : Nat → Nat) :
    let callDepth' := bs.foldl (fun callDepth b =>
      match sub b with
      | none => callDepth
      | some g => step callDepth g) callDepth
    Marked src l callDepth callDepth' ∧ (l ≤ CALL_DEPTH_MAX →
      ∀ b ∈ bs, ∀ g, sub b = some g → Labelled callDepth' g l) := by
  induction bs generalizing callDepth with
  | nil => exact ⟨.refl .., fun _ b hb => by cases hb⟩
  | cons c bs ih =>
    simp only [List.foldl_cons]
    split
    · rename_i hnone
      obtain ⟨hmarked, hlabels⟩ := ih callDepth
      refine ⟨hmarked, fun hl b hb g hg => ?_⟩
      obtain rfl | hb := List.mem_cons.mp hb
      · rw [hnone] at hg
        cases hg
      · exact hlabels hl b hb g hg
    · rename_i h hsub
      obtain ⟨hmarked, hlabels⟩ := ih (step callDepth h)
      obtain ⟨hfirst, hlabel⟩ := hstep callDepth h
      refine ⟨hfirst.trans hmarked, fun hl b hb g hg => ?_⟩
      obtain rfl | hb := List.mem_cons.mp hb
      · rw [hsub] at hg
        cases hg
        exact (hlabel hl).falls hmarked.falls
      · exact hlabels hl b hb g hg

theorem sound_loop (bs : List β) (hstep : ∀ b ∈ bs, ∀ g, sub b = some g → ∀ callDepth,
      Sound src callDepth → Sound src (step callDepth g))
    (callDepth : Nat → Nat) (hs : Sound src callDepth) :
    Sound src (bs.foldl (fun callDepth b =>
      match sub b with
      | none => callDepth
      | some g => step callDepth g) callDepth) := by
  induction bs generalizing callDepth with
  | nil => exact hs
  | cons c bs ih =>
    rw [List.foldl_cons]
    apply ih fun b hb => hstep b (List.mem_cons_of_mem c hb)
    split
    · exact hs
    · rename_i g hg
      exact hstep c List.mem_cons_self g hg callDepth hs

end Loops

/-- **Marking a function labels it and relaxes all that it labels.** -/
theorem markSubcallEntry_marked (f l : Nat) (callDepth : Nat → Nat) (hl : l ≠ 0) :
    Marked src l callDepth (markSubcallEntry src f l callDepth) ∧
      (l ≤ CALL_DEPTH_MAX → Labelled (markSubcallEntry src f l callDepth) f l) := by
  -- by the room that is left for the level
  induction hroom : CALL_DEPTH_MAX + 1 - l generalizing f l callDepth with
  | zero =>
    unfold markSubcallEntry
    split
    · rename_i hdone
      exact ⟨.refl .., fun _ => hdone⟩
    · rw [dif_pos (by omega)]
      exact ⟨.refl .., fun h => by omega⟩
  | succ room ih =>
    unfold markSubcallEntry
    split
    · rename_i hdone
      exact ⟨.refl .., fun _ => hdone⟩
    rename_i hnew
    split
    · exact ⟨.refl .., fun h => by omega⟩
    rename_i hmax
    have hloop := marked_loop (calledFn src)
      (fun callDepth g => ih g (l + 1) callDepth (by omega) (by omega))
      (src.fns f).callees (Function.update callDepth f l)
    simp only at hloop
    generalize (src.fns f).callees.foldl (fun callDepth tmp =>
      match calledFn src tmp with
      | none => callDepth
      | some subFn => markSubcallEntry src subFn (l + 1) callDepth)
      (Function.update callDepth f l) = callDepth' at hloop ⊢
    obtain ⟨hloop, hlabels⟩ := hloop
    have hother : ∀ g, g ≠ f → Function.update callDepth f l g = callDepth g :=
      fun g hg => Function.update_of_ne hg ..
    have hself : Function.update callDepth f l f = l := Function.update_self ..
    have hfalls : ∀ g, callDepth g ≠ 0 →
        Labelled (Function.update callDepth f l) g (callDepth g) := by
      intro g hg
      by_cases hgf : g = f
      · subst hgf
        have hlt : ¬ callDepth g ≤ l := fun hle => hnew ⟨hg, hle⟩
        unfold Labelled
        rw [hself]
        exact ⟨hl, by omega⟩
      · unfold Labelled
        rw [hother g hgf]
        exact ⟨hg, Nat.le_refl _⟩
    -- nothing below changes the label of the function itself
    have hkeep : callDepth' f = l := by
      by_contra hne
      have hlow := (hloop.changed f (by rw [hself]; exact hne)).1
      have hfall := (hloop.falls f (by rw [hself]; exact hl)).2
      omega
    refine ⟨⟨fun g hg => (hfalls g hg).falls hloop.falls, fun g hg => ?_, fun g hg => ?_⟩,
      fun _ => ⟨by omega, by omega⟩⟩
    · by_cases hgf : g = f
      · subst hgf
        omega
      · rw [← hother g hgf] at hg
        have hc := hloop.changed g hg
        omega
    · by_cases hgf : g = f
      · subst hgf
        rintro - hlt h ⟨tmp, htmp, hcall⟩
        rw [hkeep] at hlt ⊢
        exact hlabels (by omega) tmp htmp h hcall
      · rw [← hother g hgf] at hg
        refine hloop.relaxed g (hg.imp_left fun hr => ?_)
        exact hr.falls (hother g hgf) hfalls

/-- Marking a function at one of its depths keeps labels that are depths. -/
theorem markSubcallEntry_sound (f l : Nat) (callDepth : Nat → Nat) (hs : Sound src callDepth)
    (hf : EntryDepth src f l) : Sound src (markSubcallEntry src f l callDepth) := by
  induction hroom : CALL_DEPTH_MAX + 1 - l generalizing f l callDepth with
  | zero =>
    unfold markSubcallEntry
    split
    · exact hs
    · rw [dif_pos (by omega)]
      exact hs
  | succ room ih =>
    unfold markSubcallEntry
    split
    · exact hs
    split
    · exact hs
    have hstart : Sound src (Function.update callDepth f l) := by
      intro g hg
      rw [Function.update_apply] at hg ⊢
      split at hg
      · rename_i hgf
        rw [if_pos hgf, hgf]
        exact hf
      · rename_i hgf
        rw [if_neg hgf]
        exact hs g hg
    refine sound_loop (calledFn src) (src.fns f).callees (fun tmp htmp g hg callDepth h => ?_)
        _ hstart
    exact ih g (l + 1) callDepth h (hf.call ⟨tmp, htmp, hg⟩) (by omega)

/-! ## Marking from the entries -/

variable (src) in
/-- The entry function that an id stands for. -/
def entryOf (id : Nat) : Option Nat :=
  ((src.byId id).bind FuncSinode.data).filter fun fn =>
    if src.linuxKernel then (bytesOf "__x64_sys_").isPrefixOf (src.fns fn).name
    else (src.fns fn).callers = []

/-- Both rules are one loop over the entries. -/
theorem markEntry_eq (callDepth : Nat → Nat) : markEntry src callDepth =
    (globalIds src).foldl (fun callDepth id =>
      match entryOf src id with
      | none => callDepth
      | some fn => markSubcallEntry src fn 1 callDepth) callDepth := by
  unfold markEntry
  split
  · rename_i hlinux
    unfold markLinuxKernEntry
    congr 1
    funext callDepth id
    unfold doMarkEntry entryOf
    cases src.byId id with
    | none => rfl
    | some sn =>
      cases hdata : sn.data with
      | none => simp [hdata]
      | some fn =>
        simp only [hdata, Option.bind_some, hlinux, if_true, Option.filter_some]
        split <;> rfl
  · rename_i hlinux
    unfold markUnknownEntry
    congr 1
    funext callDepth id
    unfold markUnknownOne entryOf
    cases (src.byId id).bind FuncSinode.data with
    | none => rfl
    | some fn =>
      simp only [hlinux, Option.filter_some]
      by_cases hcallers : (src.fns fn).callers = [] <;> simp [hcallers]

theorem isEntry_iff (f : Nat) : IsEntry src f ↔ ∃ id ∈ globalIds src, entryOf src id = some f := by
  unfold IsEntry entryOf
  simp only [Option.filter_eq_some_iff]
  refine exists_congr fun id => and_congr_right fun _ => and_congr_right fun _ => ?_
  split <;> simp

/-- **Each label is the least depth of its function.** -/
theorem markEntry_least (src : MarkSrc) (f : Nat) :
    let d := markEntry src (fun _ => 0) f
    (d ≤ CALL_DEPTH_MAX ∧ IsLeast {d | EntryDepth src f d} d) ∨
      (d = 0 ∧ ∀ d, EntryDepth src f d → CALL_DEPTH_MAX < d) := by
  have hstep : ∀ callDepth g, Marked src 1 callDepth (markSubcallEntry src g 1 callDepth) ∧
      (1 ≤ CALL_DEPTH_MAX → Labelled (markSubcallEntry src g 1 callDepth) g 1) :=
    fun callDepth g => markSubcallEntry_marked g 1 callDepth Nat.one_ne_zero
  have hloop := marked_loop (entryOf src) hstep (globalIds src) fun _ => 0
  simp only [← markEntry_eq] at hloop
  obtain ⟨hmarked, hlabels⟩ := hloop
  have hsound : Sound src (markEntry src fun _ => 0) := by
    rw [markEntry_eq]
    refine sound_loop (entryOf src) _ (fun id hid g hg callDepth hs => ?_) _ fun _ h => absurd rfl h
    exact markSubcallEntry_sound g 1 callDepth hs (.entry ((isEntry_iff g).mpr ⟨id, hid, hg⟩))
  -- a function that is so many calls below an entry has no larger label
  have hall : ∀ g d, EntryDepth src g d → d ≤ CALL_DEPTH_MAX →
      Labelled (markEntry src fun _ => 0) g d := by
    intro g d hd hle
    induction hd with
    | entry h =>
      obtain ⟨id, hid, hg⟩ := (isEntry_iff _).mp h
      exact hlabels hle id hid _ hg
    | @call g h d hg hcall ih =>
      obtain ⟨hne, hlabel⟩ := ih (by omega)
      have hrelaxed := hmarked.relaxed g (Or.inr hne) hne (by omega) h hcall
      exact ⟨hrelaxed.1, by have := hrelaxed.2; omega⟩
  by_cases hzero : markEntry src (fun _ => 0) f = 0
  · refine Or.inr ⟨hzero, fun d hd => ?_⟩
    by_contra hle
    exact (hall f d hd (by omega)).1 hzero
  · refine Or.inl ⟨(hmarked.changed f hzero).2, hsound f hzero, fun d hd => ?_⟩
    by_cases hle : d ≤ CALL_DEPTH_MAX
    · exact (hall f d hd hle).2
    · have hmax := (hmarked.changed f hzero).2
      omega

end Srcinv.Analysis
