import Srcinv.Lib.Run
import Srcinv.Analysis.SinodeNames

/-!
# Weak and strong definitions of a global symbol

The conflict rules of the base phase are asked about each definition and the sinode that is there
already.  They read the weak bits of the two nodes, or the flag of the sinode, and a replacement
moves the data and leaves the flag.

* `weak_exact` — while all definitions of a global symbol are in one resfile, the data that are
  kept are strong once a strong definition was met and the flag says what they are, exactly when
  no strong definition meets weak data and no weak function brings the first `struct function`
  to a strong one.
* `strong_function_keeps_weak_flag` — a strong function over a weak one leaves the flag set.
-/

namespace Srcinv.Analysis

open Srcinv.Lib

/-! ## Strong definitions that stay -/

/-- The base phase with the definitions it has met, which the code does not keep. -/
structure MetSrc where
  src : BaseSrc
  met : List SymDef

/-- A step of the base phase. -/
def metNext (Z : NodeSizes) (R : Recolor) (w : MetSrc) (e : BaseEvent) : Option MetSrc :=
  (getbaseNext Z R w.src e).map fun src => ⟨src, (eventDef e).toList ++ w.met⟩

/-- A global symbol whose definitions are all in one resfile. -/
structure OneResfile (ty : SinodeType) (name : Name) (rf : Nat) (met : List SymDef) : Prop where
  global : ty = .funcGlobal ∨ ty = .varGlobal
  inside : ∀ d ∈ met, d.ty = ty → d.name = name → d.rf = rf

/-- A strong definition of the symbol was met. -/
def StrongMet (ty : SinodeType) (name : Name) (met : List SymDef) : Prop :=
  ∃ d ∈ met, d.ty = ty ∧ d.name = name ∧ d.weak = false

/-- A sinode of the symbol in the store. -/
def SymbolAt (st : SinodeStore) (ty : SinodeType) (name : Name) (p : Nat) : Prop :=
  p ∈ (st.trees ty).toList ∧ (st.sn p).name = name

/-- The kept data are strong once a strong definition was met, and the flag says what they are. -/
def SymbolRight (ty : SinodeType) (name : Name) (rf : Nat) (w : MetSrc) : Prop :=
  OneResfile ty name rf w.met →
    (StrongMet ty name w.met → (∃ p, SymbolAt w.src.sinodes ty name p) ∧
      ∀ p, SymbolAt w.src.sinodes ty name p → (w.src.sinodes.sn p).fromWeak = false) ∧
    ∀ p, SymbolAt w.src.sinodes ty name p →
      ((w.src.sinodes.sn p).weakFlag ≠ 0 ↔ (w.src.sinodes.sn p).fromWeak = true)

/-- A function with a `struct function` meets one of the same format without. -/
def bringsStruct (e : BaseEvent) (old : Sinode) : Bool :=
  match e, old.obj with
  | .gimple _ _ ⟨_, _, .function f⟩, some ⟨_, _, .function g⟩ =>
    old.buf.dataFmt = .gimple && g.structFunction.isNone && f.structFunction.isSome
  | _, _ => false

/-- A definition that is handled to the end is no strong one over weak data, and no weak one that
    brings the first `struct function` to strong data. -/
def MeetsItsKind (Z : NodeSizes) (R : Recolor) (ty : SinodeType) (name : Name) (rf : Nat)
    (w : MetSrc) (e : BaseEvent) : Prop :=
  OneResfile ty name rf ((eventDef e).toList ++ w.met) → (metNext Z R w e).isSome →
    ∀ d, eventDef e = some d → d.ty = ty → d.name = name →
      ∀ p, SymbolAt w.src.sinodes ty name p →
        ((w.src.sinodes.sn p).fromWeak = true → d.weak = true) ∧
          (d.weak = true → (w.src.sinodes.sn p).fromWeak = false →
            bringsStruct e (w.src.sinodes.sn p) = false)

/-! ## The rules of conflict -/

variable {st st' : SinodeStore} {Z : NodeSizes} {R : Recolor} {src src' : BaseSrc} {e : BaseEvent}
  {ty : SinodeType} {name : Name} {rf : Nat}

/-- The rule that is asked when a definition meets a sinode. -/
def eventConflict (e : BaseEvent) (old : Sinode) : Option Conflict :=
  match e with
  | .gimple _ _ o => checkConflict o old
  | .asmSym _ _ sym => some (foreignConflict (sym.bind = .weak) old)
  | .asmFile _ _ | .addBuiltin _ => none

/-- The weak bit of the node behind a sinode is that of its data. -/
def OfItsObject (s : Sinode) : Prop :=
  s.buf.dataFmt = .gimple → ∃ o, s.obj = some o ∧ o.weak = s.fromWeak

/-- No symbol of another format is ever replaced. -/
theorem foreignConflict_drop {old : Sinode} (hflag : old.weakFlag = 0 ∨ old.weakFlag = -1)
    (b : Bool) : foreignConflict b old = .drop :=
  if_neg (not_unsignedBit_lt hflag b)

/-- **What the rules replace.** -/
theorem eventConflict_replace {old : Sinode} {d : SymDef} (hd : eventDef e = some d)
    (hflag : old.weakFlag = 0 ∨ old.weakFlag = -1) (hobj : OfItsObject old)
    (h : eventConflict e old = some .replace) :
    (old.fromWeak = true ∧ d.weak = false) ∨ bringsStruct e old = true := by
  cases e with
  | asmFile buf srcfile => cases hd
  | addBuiltin rf => cases hd
  | asmSym buf rf sym =>
    simp only [eventConflict, foreignConflict_drop hflag, Option.some.injEq] at h
    cases h
  | gimple buf rf o =>
    have hweak : d.weak = o.weak := by
      simp only [eventDef] at hd
      split at hd
      · split at hd
        · cases hd
        · cases hd
          rfl
      · cases hd
    obtain ⟨addr, idx, node⟩ := o
    rw [hweak]
    cases node with
    | type t => cases h
    | other => cases h
    | function f =>
      simp only [eventConflict, checkConflict, funcConflict, foreignConflict_drop hflag] at h
      split at h
      · cases h
      rename_i hfmt
      obtain ⟨o', ho', hw'⟩ := hobj (by simpa using hfmt)
      rw [ho'] at h
      split at h
      · rename_i addr' idx' g hnode'
        cases hnode'
        rw [← hw']
        simp only [TreeObj.weak, bringsStruct, ho']
        split at h
        · rename_i hlt
          left
          revert hlt
          cases g.weak <;> cases f.weak <;> simp [unsignedBit]
        · split at h
          · rename_i hstruct
            right
            simpa [hstruct] using hfmt
          · cases h
      · cases h
    | globalVar v =>
      simp only [eventConflict, checkConflict, varConflict, foreignConflict_drop hflag] at h
      split at h
      · cases h
      rename_i hfmt
      obtain ⟨o', ho', hw'⟩ := hobj (by simpa using hfmt)
      rw [ho'] at h
      split at h
      · rename_i addr' idx' g hnode'
        cases hnode'
        rw [← hw']
        simp only [TreeObj.weak]
        split at h
        · cases h
        · rename_i hle
          left
          revert hle
          cases g.weak <;> cases v.weak <;> simp [unsignedBit]
      · cases h

/-- A first `struct function` is never dropped. -/
theorem eventConflict_drop {old : Sinode} (h : eventConflict e old = some .drop) :
    bringsStruct e old = false := by
  unfold bringsStruct
  split
  · rename_i f _ _ g hobj
    simp only [eventConflict, checkConflict, funcConflict, hobj] at h
    split at h
    · rename_i hfmt
      simp [hfmt]
    · split at h
      · cases h
      · split at h
        · cases h
        · rename_i hstruct
          simp only [not_and] at hstruct
          cases hg : g.structFunction <;> simp [hg] at hstruct ⊢
          simp [hstruct]
  · rfl

/-- **A global symbol is kept or replaced as its rule says.** -/
theorem planOf_conflict (hflag : ∀ p, (st.sn p).weakFlag = 0 ∨ (st.sn p).weakFlag = -1)
    {plan : Plan} {d : SymDef} (hd : eventDef e = some d)
    (hglobal : d.ty = .funcGlobal ∨ d.ty = .varGlobal) (h : planOf Z R src e = some (st, plan)) :
    (∀ q, plan = .keep q → eventConflict e (st.sn q) = some .drop) ∧
      ∀ s q, plan = .insert s .replace (some q) → eventConflict e (st.sn q) = some .replace := by
  cases e with
  | asmFile buf srcfile => cases h
  | addBuiltin rf => cases h
  | asmSym buf rf sym =>
    simp only [planOf] at h
    split at h
    · cases h
    obtain ⟨_, hplan, hpair⟩ := Option.map_eq_some_iff.mp h
    cases hpair
    unfold asmDecide at hplan
    split at hplan
    · cases hplan
      exact ⟨fun _ hq => (by cases hq), fun _ _ hq => (by cases hq)⟩
    · cases hplan
    · cases hplan
      simp only [eventConflict, foreignConflict_drop (hflag _), implies_true, true_and]
      intro s q hq
      simp only [asmPlan] at hq
      split at hq
      · cases hq
      · rename_i p _
        rw [if_neg (not_unsignedBit_lt (hflag p) _)] at hq
        cases hq
  | gimple buf rf o =>
    obtain ⟨-, rfl, -⟩ | ⟨ty₀, name₀, xloc, locFile, hclass, -, hcase⟩ := gimpleDecide_cases h
    · exact ⟨fun _ hq => (by cases hq), fun _ _ hq => (by cases hq)⟩
    obtain ⟨t, name, -, -, rfl⟩ | ⟨ty, name, -, hname, hplan⟩ := hcase
    · exact ⟨fun _ hq => (by cases hq), fun _ _ hq => (by cases hq)⟩
    have hty : ty = d.ty := by
      simp only [eventDef, hclass] at hd
      obtain ⟨rfl, -⟩ | ⟨rfl, -⟩ := finishName_cases hname
      · simp only at hd
        split at hd
        · cases hd
        · cases hd
          rfl
      · cases hd
    rw [← hty] at hglobal
    unfold gimplePlan at hplan
    simp only [if_pos hglobal] at hplan
    split at hplan
    · cases hplan
    split at hplan
    · cases hplan
      exact ⟨fun _ hq => (by cases hq), fun _ _ hq => (by cases hq)⟩
    rename_i p hhit
    rw [if_neg (by obtain rfl | rfl := hglobal <;> simp)] at hplan
    obtain ⟨c, hc, rfl⟩ := Option.map_eq_some_iff.mp hplan
    cases c with
    | drop =>
      refine ⟨fun q hq => ?_, fun _ _ hq => (by cases hq)⟩
      cases hq
      exact hc
    | replace =>
      refine ⟨fun _ hq => (by cases hq), fun s q hq => ?_⟩
      cases hq
      exact hc

/-! ## The invariant -/

/-- The symbol has at most one sinode, whose flag and object are those of its data. -/
structure SymbolInv (ty : SinodeType) (name : Name) (rf : Nat) (strongMet : Prop)
    (st : SinodeStore) : Prop where
  inside : ∀ p, SymbolAt st ty name p → (st.sn p).buf.rf = rf
  single : ∀ p q, SymbolAt st ty name p → SymbolAt st ty name q → p = q
  flag : ∀ p, SymbolAt st ty name p → (st.sn p).weakFlag = signedBit (st.sn p).fromWeak
  object : ∀ p, SymbolAt st ty name p → OfItsObject (st.sn p)
  strong : strongMet → ∃ p, SymbolAt st ty name p ∧ (st.sn p).fromWeak = false

/-- The stores have the same sinodes of the symbol. -/
structure SameSymbol (ty : SinodeType) (name : Name) (st st' : SinodeStore) : Prop where
  at_iff : ∀ p, SymbolAt st' ty name p ↔ SymbolAt st ty name p
  sn : ∀ p, SymbolAt st ty name p → st'.sn p = st.sn p

theorem SameSymbol.refl (ty : SinodeType) (name : Name) (st : SinodeStore) :
    SameSymbol ty name st st := ⟨fun _ => Iff.rfl, fun _ _ => rfl⟩

theorem SameSymbol.trans {st'' : SinodeStore} (h : SameSymbol ty name st st')
    (h' : SameSymbol ty name st' st'') : SameSymbol ty name st st'' :=
  ⟨fun p => (h'.at_iff p).trans (h.at_iff p),
    fun p hp => (h'.sn p ((h.at_iff p).mpr hp)).trans (h.sn p hp)⟩

theorem SymbolInv.frame {m m' : Prop} (hi : SymbolInv ty name rf m st)
    (h : SameSymbol ty name st st') (hm : m' → m) : SymbolInv ty name rf m' st' where
  inside p hp := by
    rw [h.sn p ((h.at_iff p).mp hp)]
    exact hi.inside p ((h.at_iff p).mp hp)
  single p q hp hq := hi.single p q ((h.at_iff p).mp hp) ((h.at_iff q).mp hq)
  flag p hp := by
    rw [h.sn p ((h.at_iff p).mp hp)]
    exact hi.flag p ((h.at_iff p).mp hp)
  object p hp := by
    rw [h.sn p ((h.at_iff p).mp hp)]
    exact hi.object p ((h.at_iff p).mp hp)
  strong h' := by
    obtain ⟨p, hp, hw⟩ := hi.strong (hm h')
    exact ⟨p, (h.at_iff p).mpr hp, h.sn p hp ▸ hw⟩

theorem SymbolInv.right {m : Prop} (hi : SymbolInv ty name rf m st) :
    (m → (∃ p, SymbolAt st ty name p) ∧
      ∀ p, SymbolAt st ty name p → (st.sn p).fromWeak = false) ∧
    ∀ p, SymbolAt st ty name p → ((st.sn p).weakFlag ≠ 0 ↔ (st.sn p).fromWeak = true) := by
  refine ⟨fun h => ?_, fun p hp => ?_⟩
  · obtain ⟨p, hp, hw⟩ := hi.strong h
    refine ⟨⟨p, hp⟩, fun q hq => ?_⟩
    rw [hi.single q p hq hp]
    exact hw
  · rw [hi.flag p hp]
    cases (st.sn p).fromWeak <;> simp [signedBit]

/-- Linking a sinode adds it to the sinodes of its own symbol. -/
theorem symbolAt_link (hb : StoreBase st) {s : Sinode} {probe : Nat → Ordering}
    (h : linkNode (st.alloc s) R probe st.next = some st') (p : Nat) :
    SymbolAt st' ty name p ↔
      (s.type = ty ∧ s.name = name ∧ p = st.next) ∨ SymbolAt st ty name p := by
  have hmem := mem_linkNode h ty p
  rw [alloc_self] at hmem
  have hsn := (linkNode_sn h).1
  unfold SymbolAt
  rw [hmem, hsn]
  constructor
  · rintro ⟨⟨rfl, rfl⟩ | hp, hname⟩
    · rw [alloc_self] at hname
      exact Or.inl ⟨rfl, hname, rfl⟩
    · rw [alloc_of_lt s (hb.typed ty p hp).2] at hname
      exact Or.inr ⟨hp, hname⟩
  · rintro (⟨rfl, rfl, rfl⟩ | ⟨hp, hname⟩)
    · exact ⟨Or.inl ⟨rfl, rfl⟩, by rw [alloc_self]⟩
    · refine ⟨Or.inr hp, ?_⟩
      rw [alloc_of_lt s (hb.typed ty p hp).2]
      exact hname

/-- Linking leaves the sinodes alone that are there. -/
theorem sn_link (hb : StoreBase st) {s : Sinode} {probe : Nat → Ordering}
    (h : linkNode (st.alloc s) R probe st.next = some st') {p : Nat}
    (hp : SymbolAt st ty name p) : st'.sn p = st.sn p := by
  rw [(linkNode_sn h).1]
  exact alloc_of_lt s (hb.typed ty p hp.1).2

/-- Replacing moves no sinode to another symbol. -/
theorem symbolAt_replace (hb : StoreBase st) (s : Sinode) (q p : Nat) :
    SymbolAt (sinodeInsertDoReplace (st.alloc s) q st.next) ty name p ↔
      SymbolAt st ty name p := by
  refine and_congr_right fun hp => ?_
  rw [replace_sn s (hb.typed ty p hp).2]
  split
  · rename_i hpq
    rw [hpq]
  · rfl

/-- A linked sinode of another symbol. -/
theorem sameSymbol_link (hb : StoreBase st) {s : Sinode} (hs : ¬ (s.type = ty ∧ s.name = name))
    {probe : Nat → Ordering} (h : linkNode (st.alloc s) R probe st.next = some st') :
    SameSymbol ty name st st' := by
  refine ⟨fun p => (symbolAt_link hb h p).trans ?_, fun p hp => sn_link hb h hp⟩
  rw [or_iff_right]
  rintro ⟨hty, hname, -⟩
  exact hs ⟨hty, hname⟩

/-- A replaced sinode of another symbol. -/
theorem sameSymbol_replace (hb : StoreBase st) {s : Sinode}
    (hs : ¬ (s.type = ty ∧ s.name = name)) {q : Nat} (hq : SymbolAt st s.type s.name q) :
    SameSymbol ty name st (sinodeInsertDoReplace (st.alloc s) q st.next) := by
  refine ⟨symbolAt_replace hb s q, fun p hp => ?_⟩
  rw [replace_sn s (hb.typed ty p hp.1).2, if_neg]
  rintro rfl
  exact hs ⟨(hb.typed _ p hq.1).1.symm.trans (hb.typed _ p hp.1).1, hq.2.symm.trans hp.2⟩

/-- The sinode of a file is not one of a global symbol. -/
theorem sameSymbol_file (hb : StoreBase st) (hty : ty ≠ .file) {file : Name}
    (h : sinodeInsert (st.alloc (sinodeNew .file file)) R st.next .none = some st') :
    SameSymbol ty name st st' :=
  sameSymbol_link hb (fun hs => hty hs.1.symm) (insertFile_link h)

/-- The first sinode of the symbol. -/
theorem SymbolInv.link_first {m : Prop} (hb : StoreBase st) {s : Sinode}
    (hnone : ∀ p, ¬ SymbolAt st s.type s.name p) (hflag : s.weakFlag = signedBit s.fromWeak)
    (hobj : OfItsObject s) {probe : Nat → Ordering}
    (h : linkNode (st.alloc s) R probe st.next = some st') (hm : m → s.fromWeak = false) :
    SymbolInv s.type s.name s.buf.rf m st' := by
  have hat : ∀ p, SymbolAt st' s.type s.name p ↔ p = st.next := fun p =>
    (symbolAt_link hb h p).trans ⟨fun hp => hp.elim (fun hp => hp.2.2) fun hp =>
      absurd hp (hnone p), fun hp => Or.inl ⟨rfl, rfl, hp⟩⟩
  have hsn : st'.sn st.next = s := by rw [(linkNode_sn h).1, alloc_self]
  refine ⟨fun p hp => ?_, fun p q hp hq => ((hat p).mp hp).trans ((hat q).mp hq).symm,
    fun p hp => ?_, fun p hp => ?_, fun h => ⟨st.next, (hat _).mpr rfl, ?_⟩⟩
  · rw [(hat p).mp hp, hsn]
  · rw [(hat p).mp hp, hsn]
    exact hflag
  · rw [(hat p).mp hp, hsn]
    exact hobj
  · rw [hsn]
    exact hm h

/-- **A replacement by data of the same kind.** -/
theorem SymbolInv.replace_same {m m' : Prop} {s : Sinode}
    (hi : SymbolInv s.type s.name s.buf.rf m st) (hb : StoreBase st) {q : Nat}
    (hq : SymbolAt st s.type s.name q) (hsame : (st.sn q).fromWeak = s.fromWeak)
    (hobj : OfItsObject s) (hm : m' → s.fromWeak = false) :
    SymbolInv s.type s.name s.buf.rf m' (sinodeInsertDoReplace (st.alloc s) q st.next) := by
  have hat : ∀ p, SymbolAt (sinodeInsertDoReplace (st.alloc s) q st.next) s.type s.name p ↔
      SymbolAt st s.type s.name p := symbolAt_replace hb s q
  have hsn : (sinodeInsertDoReplace (st.alloc s) q st.next).sn q =
      { st.sn q with toSinodeData := s.toSinodeData } := by
    rw [replace_sn s (hb.typed _ q hq.1).2, if_pos rfl]
  have hpq : ∀ p, SymbolAt (sinodeInsertDoReplace (st.alloc s) q st.next) s.type s.name p →
      p = q := fun p hp => hi.single p q ((hat p).mp hp) hq
  refine ⟨fun p hp => ?_, fun p p' hp hp' => (hpq p hp).trans (hpq p' hp').symm,
    fun p hp => ?_, fun p hp => ?_, fun h => ⟨q, (hat q).mpr hq, ?_⟩⟩
  · rw [hpq p hp, hsn]
  · rw [hpq p hp, hsn]
    exact (hi.flag q hq).trans (by rw [hsame])
  · rw [hpq p hp, hsn]
    exact hobj
  · rw [hsn]
    exact hm h

/-- A search for a symbol that has a sinode returns it. -/
theorem SymbolInv.search {m : Prop} {s : Sinode} (hi : SymbolInv s.type s.name s.buf.rf m st)
    (hb : StoreBase st) (hglobal : s.type = .funcGlobal ∨ s.type = .varGlobal) {p : Nat}
    (hp : SymbolAt st s.type s.name p) : sinodeSearch st s = some p := by
  have hwalk : ∀ a ∈ (st.trees s.type).toList, keyWalk st s a = cmpName st s.name a := by
    intro a ha
    have hkey : keyWalk st s a = cmpNameResfile st s.buf.rf s.name a := by
      obtain hty | hty := hglobal <;> simp only [keyWalk, hty]
    rw [hkey, cmpNameResfile, cmpName]
    cases hcmp : compare (st.sn a).name s.name with
    | lt => rfl
    | gt => rfl
    | eq =>
      have hrf := hi.inside a ⟨ha, Std.LawfulEqCmp.eq_of_compare hcmp⟩
      rw [Ordering.eq_then, hrf]
      exact Std.ReflCmp.compare_self
  obtain ⟨q, hq⟩ := hb.find_cmpName hp.1 hp.2
  have hqp : q = p := by
    obtain ⟨hmem, heq⟩ := SearchTree.find_some hq
    exact hi.single q p ⟨hmem, Std.LawfulEqCmp.eq_of_compare heq⟩ hp
  rw [← hqp]
  refine sinodeSearch_own ?_
  rw [SearchTree.find_congr hwalk]
  exact hq

/-! ## The steps -/

/-- The sinode of a definition has the weak bit of its object. -/
theorem MadeFrom.object_weak {s : Sinode} (h : MadeFrom Z e s) : OfItsObject s := by
  cases h with
  | @object buf rf o ty₀ ty name₀ name xloc locFile hclass hname =>
    refine fun _ => ⟨o, ?_, (gimpleSinode_facts Z _ o ty name xloc locFile).2.2.2.2.1.symm⟩
    unfold gimpleSinode
    simp only
    split
    · rfl
    · rfl
    · split <;> rfl
    · rfl
  | symbol hty hname =>
    intro hfmt
    cases hfmt

/-- What a definition of the symbol does to it. -/
inductive DefStep (st st' : SinodeStore) (e : BaseEvent) (s : Sinode) : Prop
  | first (hnone : ∀ p, ¬ SymbolAt st s.type s.name p) {probe : Nat → Ordering} {R : Recolor}
      (h : linkNode (st.alloc s) R probe st.next = some st')
  | dropped {q : Nat} (hq : SymbolAt st s.type s.name q)
      (hrule : eventConflict e (st.sn q) = some .drop) (h : st' = st)
  | replaced {q : Nat} (hq : SymbolAt st s.type s.name q)
      (hrule : eventConflict e (st.sn q) = some .replace)
      (h : st' = sinodeInsertDoReplace (st.alloc s) q st.next)

/-- How a plan is run: the sinode is inserted, or nothing changes. -/
def PlanRun (R : Recolor) (sn st' : SinodeStore) (plan : Plan) : Prop :=
  (st' = sn ∧ ∀ s b hit, plan ≠ .insert s b hit) ∨
    ∃ s b hit, plan = .insert s b hit ∧ sinodeInsert (sn.alloc s) R sn.next b = some st'

/-- A definition of the symbol is the first one, is dropped or replaces. -/
theorem defStep_of_decided {m : Prop} {s : Sinode} {plan : Plan} (hb : StoreBase st)
    (hi : SymbolInv s.type s.name s.buf.rf m st)
    (hglobal : s.type = .funcGlobal ∨ s.type = .varGlobal) (hout : Decided st s plan)
    (hkeep : ∀ q, plan = .keep q → eventConflict e (st.sn q) = some .drop)
    (hreplace : ∀ s q, plan = .insert s .replace (some q) →
      eventConflict e (st.sn q) = some .replace)
    (hrun : PlanRun R st st' plan) : DefStep st st' e s := by
  cases hout with
  | fresh hsearch =>
    obtain ⟨-, hno⟩ | ⟨_, _, _, hinsert, hins⟩ := hrun
    · exact absurd rfl (hno _ _ _)
    cases hinsert
    have hlink := sinodeInsert_none hins
    rw [alloc_self] at hlink
    refine .first (fun p hp => ?_) hlink
    rw [hi.search hb hglobal hp] at hsearch
    cases hsearch
  | @kept q hsearch =>
    obtain ⟨hst, -⟩ | ⟨_, _, _, hinsert, -⟩ := hrun
    · exact .dropped (sinodeSearch_mem hsearch) (hkeep q rfl) hst
    · cases hinsert
  | @replaced q hsearch hty =>
    obtain ⟨-, hno⟩ | ⟨_, _, _, hinsert, hins⟩ := hrun
    · exact absurd rfl (hno _ _ _)
    cases hinsert
    obtain ⟨hb', -⟩ | ⟨_, q', -, -, -, hq', -, hst⟩ :=
      insert_cases hb (.replaced hsearch hty) hins
    · cases hb'
    have hq : SymbolAt st s.type s.name q := sinodeSearch_mem hsearch
    obtain rfl : q' = q := hi.single q' q
      ⟨(SearchTree.find_some hq').1, Std.LawfulEqCmp.eq_of_compare (SearchTree.find_some hq').2⟩ hq
    exact .replaced hq (hreplace s q' rfl) hst

/-- A definition of another symbol leaves this one alone. -/
theorem sameSymbol_of_decided {s : Sinode} {plan : Plan} (hb : StoreBase st)
    (hs : ¬ (s.type = ty ∧ s.name = name)) (hout : Decided st s plan)
    (hrun : PlanRun R st st' plan) : SameSymbol ty name st st' := by
  obtain ⟨hst, -⟩ | ⟨s', b, hit, rfl, hins⟩ := hrun
  · rw [hst]
    exact .refl ..
  obtain rfl : s' = s := by cases hout <;> rfl
  obtain ⟨-, -, hlink⟩ | ⟨_, q, -, -, -, hq, -, hst⟩ := insert_cases hb hout hins
  · exact sameSymbol_link hb hs hlink
  · rw [hst]
    obtain ⟨hmem, heq⟩ := SearchTree.find_some hq
    exact sameSymbol_replace hb hs ⟨hmem, Std.LawfulEqCmp.eq_of_compare heq⟩

/-- **What a step does to a symbol.** -/
theorem symbolStep_cases {m : Prop} {met : List SymDef} (hb : StoreBase src.sinodes)
    (hi : SymbolInv ty name rf m src.sinodes)
    (hone : OneResfile ty name rf ((eventDef e).toList ++ met))
    (h : getbaseNext Z R src e = some src') :
    ((∀ d, eventDef e = some d → ¬ (d.ty = ty ∧ d.name = name)) ∧
      SameSymbol ty name src.sinodes src'.sinodes) ∨
    ∃ sn s, StoreBase sn ∧ SameSymbol ty name src.sinodes sn ∧ MadeFrom Z e s ∧
      eventDef e = some ⟨ty, name, rf, s.fromWeak⟩ ∧ s.type = ty ∧ s.name = name ∧
      s.buf.rf = rf ∧ DefStep sn src'.sinodes e s := by
  have hfile : ty ≠ .file := by obtain h | h := hone.global <;> simp [h]
  obtain ⟨sn, plan, hplan, hrun⟩ | ⟨hnodef, ⟨file, hins⟩ | ⟨builtin, hsame⟩⟩ :=
    getbaseNext_cases h
  · have hbsn := storeBase_planOf hb hplan
    obtain ⟨hsn, hcase⟩ := planOf_cases hb.flag hplan
    have hsame : SameSymbol ty name src.sinodes sn := by
      obtain rfl | ⟨file, hins⟩ := hsn
      · exact .refl ..
      · exact sameSymbol_file hb hfile hins
    obtain ⟨hnodef, hplan'⟩ | ⟨s, hmade, hout⟩ := hcase
    · left
      refine ⟨fun d hd => (by rw [hnodef] at hd; cases hd), ?_⟩
      obtain ⟨hsrc, -⟩ | ⟨s, b, hit, rfl, -⟩ := hrun
      · rw [hsrc]
        exact hsame
      · obtain hp | ⟨_, _, hp⟩ := hplan' <;> cases hp
    by_cases hs : s.type = ty ∧ s.name = name
    · -- the definition is one of the symbol
      obtain ⟨rfl, rfl⟩ := hs
      have hdef : eventDef e = some ⟨s.type, s.name, s.buf.rf, s.fromWeak⟩ := by
        obtain hdef | ⟨-, htype⟩ := hmade.facts.2
        · exact hdef
        · obtain hty | hty := hone.global <;> rw [htype] at hty <;> cases hty
      obtain rfl : s.buf.rf = rf := hone.inside _ (by rw [hdef]; exact List.mem_cons_self) rfl rfl
      have hisn := hi.frame hsame id
      have hconf := planOf_conflict hbsn.flag hdef hone.global hplan
      exact Or.inr ⟨sn, s, hbsn, hsame, hmade, hdef, rfl, rfl, rfl,
        defStep_of_decided hbsn hisn hone.global hout hconf.1 hconf.2 hrun⟩
    · -- the definition is one of another symbol
      left
      refine ⟨fun d hd => ?_, ?_⟩
      · obtain hdef | ⟨hnodef, -⟩ := hmade.facts.2
        · rw [hdef] at hd
          cases hd
          exact hs
        · rw [hnodef] at hd
          cases hd
      exact hsame.trans (sameSymbol_of_decided hbsn hs hout hrun)
  · exact Or.inl ⟨fun d hd => (by rw [hnodef] at hd; cases hd), sameSymbol_file hb hfile hins⟩
  · refine Or.inl ⟨fun d hd => (by rw [hnodef] at hd; cases hd), ?_⟩
    rw [hsame]
    exact ⟨fun _ => Iff.rfl, fun _ _ => rfl⟩

/-- What holds of a symbol all along a run whose steps meet the guard. -/
structure MetInv (ty : SinodeType) (name : Name) (rf : Nat) (w : MetSrc) : Prop where
  base : StoreBase w.src.sinodes
  symbol : OneResfile ty name rf w.met →
    SymbolInv ty name rf (StrongMet ty name w.met) w.src.sinodes

theorem OneResfile.tail {ds met : List SymDef} (h : OneResfile ty name rf (ds ++ met)) :
    OneResfile ty name rf met :=
  ⟨h.global, fun d hd => h.inside d (List.mem_append_right ds hd)⟩

variable {w w' : MetSrc}

/-- Without a definition of the symbol, no strong one is met. -/
theorem strongMet_other {met : List SymDef}
    (h : ∀ d, eventDef e = some d → ¬ (d.ty = ty ∧ d.name = name))
    (hm : StrongMet ty name ((eventDef e).toList ++ met)) : StrongMet ty name met := by
  obtain ⟨d, hd, hty, hname, hweak⟩ := hm
  obtain hd | hd := List.mem_append.mp hd
  · exact absurd ⟨hty, hname⟩ (h d (Option.mem_toList.mp hd))
  · exact ⟨d, hd, hty, hname, hweak⟩

/-- **A definition that meets its kind keeps the invariant.** -/
theorem metInv_step (hi : MetInv ty name rf w) (hg : MeetsItsKind Z R ty name rf w e)
    (h : metNext Z R w e = some w') : MetInv ty name rf w' := by
  have hsome : (metNext Z R w e).isSome := by rw [h]; rfl
  obtain ⟨src', hnext, rfl⟩ := Option.map_eq_some_iff.mp h
  refine ⟨storeBase_step hi.base hnext, fun hone => ?_⟩
  have hsym := hi.symbol hone.tail
  obtain ⟨hother, hsame⟩ | ⟨sn, s, hbsn, hsame, hmade, hdef, rfl, rfl, rfl, hstep⟩ :=
    symbolStep_cases hi.base hsym hone hnext
  · exact hsym.frame hsame (strongMet_other hother)
  have hisn := hsym.frame hsame id
  have hkind : ∀ q, SymbolAt sn s.type s.name q →
      ((sn.sn q).fromWeak = true → s.fromWeak = true) ∧
        (s.fromWeak = true → (sn.sn q).fromWeak = false → bringsStruct e (sn.sn q) = false) := by
    intro q hq
    have hq' := (hsame.at_iff q).mp hq
    rw [hsame.sn q hq']
    exact hg hone hsome _ hdef rfl rfl q hq'
  have hmet : StrongMet s.type s.name ((eventDef e).toList ++ w.met) →
      s.fromWeak = false ∨ StrongMet s.type s.name w.met := by
    rintro ⟨d, hd, hty, hname, hweak⟩
    rw [hdef] at hd
    obtain rfl | hd := List.mem_cons.mp hd
    · exact Or.inl hweak
    · exact Or.inr ⟨d, hd, hty, hname, hweak⟩
  cases hstep with
  | first hnone hlink =>
    refine SymbolInv.link_first hbsn hnone hmade.facts.1 hmade.object_weak hlink fun hm => ?_
    obtain hweak | hm := hmet hm
    · exact hweak
    · obtain ⟨p, hp, -⟩ := hisn.strong hm
      exact absurd hp (hnone p)
  | @dropped q hq hrule hst =>
    rw [hst]
    refine ⟨hisn.inside, hisn.single, hisn.flag, hisn.object, fun hm => ?_⟩
    obtain hweak | hm := hmet hm
    · refine ⟨q, hq, Bool.eq_false_iff.mpr fun hold => ?_⟩
      rw [(hkind q hq).1 hold] at hweak
      cases hweak
    · exact hisn.strong hm
  | @replaced q hq hrule hst =>
    rw [hst]
    obtain ⟨hk₁, hk₂⟩ := hkind q hq
    have hsame' : (sn.sn q).fromWeak = s.fromWeak := by
      obtain ⟨hold, hnew⟩ | hstruct :=
        eventConflict_replace hdef (hbsn.flag q) (hisn.object q hq) hrule
      · exact hold.trans (hk₁ hold).symm
      · cases hnew : s.fromWeak with
        | false => exact Bool.eq_false_iff.mpr fun hold => by rw [hk₁ hold] at hnew; cases hnew
        | true =>
          by_contra hold
          rw [hk₂ hnew (Bool.eq_false_iff.mpr hold)] at hstruct
          cases hstruct
    refine hisn.replace_same hbsn hq hsame' hmade.object_weak fun hm => ?_
    obtain hweak | hm := hmet hm
    · exact hweak
    · rw [← hsame']
      exact (hisn.right.1 hm).2 q hq

/-- **A definition that does not meet its kind leaves the wrong data or the wrong flag.** -/
theorem kind_breaks (hi : MetInv ty name rf w) (hng : ¬ MeetsItsKind Z R ty name rf w e) :
    ∃ w', metNext Z R w e = some w' ∧ ¬ SymbolRight ty name rf w' := by
  simp only [MeetsItsKind, not_forall] at hng
  obtain ⟨hone, hsome, d, hdef, hdty, hdname, p, hp, hkind⟩ := hng
  obtain ⟨w', hw'⟩ := Option.isSome_iff_exists.mp hsome
  refine ⟨w', hw', fun hright => ?_⟩
  obtain ⟨src', hnext, rfl⟩ := Option.map_eq_some_iff.mp hw'
  obtain ⟨hstrong, hflag⟩ := hright hone
  have hsym := hi.symbol hone.tail
  obtain ⟨hother, -⟩ | ⟨sn, s, hbsn, hsame, hmade, hdef', rfl, rfl, rfl, hstep⟩ :=
    symbolStep_cases hi.base hsym hone hnext
  · exact hother d hdef ⟨hdty, hdname⟩
  have hweak : d.weak = s.fromWeak := by
    rw [hdef'] at hdef
    cases hdef
    rfl
  have hisn := hsym.frame hsame id
  have hpsn := (hsame.at_iff p).mpr hp
  rw [← hsame.sn p hp, hweak] at hkind
  cases hstep with
  | first hnone _ => exact hnone p hpsn
  | @dropped q hq hrule hst =>
    obtain rfl := hisn.single q p hq hpsn
    refine hkind ⟨fun hold => ?_, fun _ _ => eventConflict_drop hrule⟩
    by_contra hnew
    have hmet : StrongMet s.type s.name ((eventDef e).toList ++ w.met) :=
      ⟨d, List.mem_append_left _ (Option.mem_toList.mpr hdef), hdty, hdname,
        hweak.trans (Bool.eq_false_iff.mpr hnew)⟩
    have hkept := (hstrong hmet).2 q (hst ▸ hq)
    simp only [hst, hold] at hkept
    cases hkept
  | @replaced q hq hrule hst =>
    obtain rfl := hisn.single q p hq hpsn
    have hsn : src'.sinodes.sn q = { sn.sn q with toSinodeData := s.toSinodeData } := by
      rw [hst, replace_sn s (hbsn.typed _ q hq.1).2, if_pos rfl]
    have hat : SymbolAt src'.sinodes s.type s.name q := by
      rw [hst]
      exact (symbolAt_replace hbsn s q q).mpr hq
    have hbit := hflag q hat
    simp only [hsn, hisn.flag q hq] at hbit
    -- the flag that stays behind is the one of the old data
    have hkinds : (sn.sn q).fromWeak = s.fromWeak := by
      revert hbit
      cases (sn.sn q).fromWeak <;> cases s.fromWeak <;> simp [signedBit]
    rw [hkinds] at hkind
    exact hkind ⟨id, fun ht hf => absurd ht (Bool.eq_false_iff.mp hf)⟩

theorem metInv_empty (builtin : Option Nat) (ty : SinodeType) (name : Name) (rf : Nat) :
    MetInv ty name rf ⟨.empty builtin, []⟩ := by
  refine ⟨storeBase_empty builtin, fun _ => ⟨?_, ?_, ?_, ?_, ?_⟩⟩
  · rintro p ⟨hp, -⟩
    cases hp
  · rintro p q ⟨hp, -⟩
    cases hp
  · rintro p ⟨hp, -⟩
    cases hp
  · rintro p ⟨hp, -⟩
    cases hp
  · rintro ⟨d, hd, -⟩
    cases hd

/-- **The kept data and the flag are right exactly when each definition meets its kind.** -/
theorem weak_exact (Z : NodeSizes) (R : Recolor) (builtin : Option Nat) (ty : SinodeType)
    (name : Name) (rf : Nat) (es : List BaseEvent) :
    Visits (metNext Z R) (SymbolRight ty name rf) ⟨.empty builtin, []⟩ es ↔
      Along (metNext Z R) (MeetsItsKind Z R ty name rf) ⟨.empty builtin, []⟩ es := by
  have hstep : ∀ w e w', MetInv ty name rf w → MeetsItsKind Z R ty name rf w e →
      metNext Z R w e = some w' → MetInv ty name rf w' := fun _ _ _ hi hg h => metInv_step hi hg h
  apply visits_iff_along hstep
  · exact fun w hi hone => (hi.symbol hone).right
  · exact fun w e hi hng => kind_breaks hi hng
  · exact metInv_empty builtin ty name rf

/-! ## A strong function over a weak one -/

/-- A function `f` with a body. -/
def definedFunction (weak : Bool) : TreeObj :=
  ⟨0x1000, 0, .function ⟨some [102], false, true, true, weak, some true, ⟨some [97], 1, 1⟩⟩⟩

/-- The flag of the weak `f` stays with the data of the strong one. -/
theorem strong_function_keeps_weak_flag :
    ¬ Visits (metNext ⟨1, 2, 3⟩ .id) (SymbolRight .funcGlobal [102] 1) ⟨.empty none, []⟩
      [.gimple 0 1 (definedFunction true), .gimple 1 1 (definedFunction false)] := by
  intro hv
  have hright := visits_iff_exec.mp hv _ [] _ (List.append_nil _).symm rfl
  obtain ⟨-, hflag⟩ := hright ⟨Or.inl rfl, by decide⟩
  have hbit := (hflag 1 ⟨List.mem_cons_self, rfl⟩).mp (by decide)
  cases hbit

end Srcinv.Analysis
