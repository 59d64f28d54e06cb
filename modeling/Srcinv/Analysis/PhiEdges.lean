import Srcinv.Analysis.Cfg

/-!
# The edge of a phi

The edge that a block is entered by is not kept: `dec_gimple_phi` takes the first argument with an
edge from a block on the chain of edges that fall through, from the block before.  The chain does
not stop at the block itself, so that the edge back from a loop may be found first, and the first
block of a function is not known to be the one before.

* `phiArg_iff` — what the loop over the arguments finds.
* `CpInv` — how the block before and the edge hang together, in every state of a run.
* `phi_edge_exact` — in every state of a run the argument of the edge is taken exactly where
  `EdgeMet` holds.
-/

namespace Srcinv.Analysis

open Srcinv.Lib

namespace Cfg

variable (g : Cfg)

/-- The only edge out of `b` falls through to `c`. -/
def Fall (b c : Nat) : Prop := ∃ e, g.fallEdge b = some (some e) ∧ e.dest = c

/-- The chain of edges that fall through from `b` comes by `c`. -/
def Chain : Nat → Nat → Prop := Relation.ReflTransGen g.Fall

/-- The chain comes to a block where it does not go on. -/
def Ends (b : Nat) : Prop := ∃ d, g.Chain b d ∧ g.fallEdge d = some none

variable {g} {b c d x : Nat} {e : Edge}

theorem fall_det (hc : g.Fall b c) (hd : g.Fall b d) : c = d := by
  obtain ⟨e, he, rfl⟩ := hc
  obtain ⟨e', he', rfl⟩ := hd
  cases he.symm.trans he'
  rfl

/-- A block with such an edge has no other one. -/
theorem succs_of_fallEdge (h : g.fallEdge b = some (some e)) : g.succs b = some [e] := by
  unfold fallEdge at h
  obtain ⟨es, hes, he⟩ := Option.map_eq_some_iff.mp h
  split at he
  · split at he
    · cases he
      exact hes
    · cases he
  · cases he

theorem chain_step (hc : g.Fall b c) (hne : b ≠ x) : g.Chain b x ↔ g.Chain c x := by
  constructor
  · intro h
    obtain rfl | ⟨d, hd, hdx⟩ := Relation.ReflTransGen.cases_head h
    · exact absurd rfl hne
    · rwa [fall_det hc hd]
  · exact Relation.ReflTransGen.head hc

theorem chain_stop (hb : ∀ c, ¬ g.Fall b c) (hne : b ≠ x) : ¬ g.Chain b x := by
  intro h
  obtain rfl | ⟨d, hd, -⟩ := Relation.ReflTransGen.cases_head h
  · exact hne rfl
  · exact hb d hd

theorem ends_step (hc : g.Fall b c) : g.Ends b ↔ g.Ends c := by
  constructor
  · rintro ⟨d, hbd, hd⟩
    obtain rfl | ⟨c', hc', hcd⟩ := Relation.ReflTransGen.cases_head hbd
    · obtain ⟨e, he, -⟩ := hc
      cases he.symm.trans hd
    · rw [fall_det hc hc']
      exact ⟨d, hcd, hd⟩
  · rintro ⟨d, hcd, hd⟩
    exact ⟨d, Relation.ReflTransGen.head hc hcd, hd⟩

end Cfg

/-! ## The loop from the block before -/

variable {g : Cfg} {b x fuel : Nat}

theorem onChain_fall {e : Edge} (he : g.fallEdge b = some (some e)) (hne : b ≠ x) :
    onChain g x (fuel + 1) b = onChain g x fuel e.dest := by
  rw [onChain, if_neg hne, he]

theorem onChain_mono {r : Bool} (h : onChain g x fuel b = some r) (m : Nat) :
    onChain g x (fuel + m) b = some r := by
  induction fuel generalizing b with
  | zero => cases h
  | succ fuel ih =>
    have hfuel : fuel + 1 + m = fuel + m + 1 := by omega
    rw [hfuel]
    unfold onChain at h ⊢
    split at h
    · rename_i heq
      rw [if_pos heq]
      exact h
    · rename_i heq
      rw [if_neg heq]
      split at h
      · cases h
      · exact h
      · exact ih h

theorem onChain_true : (∃ fuel, onChain g x fuel b = some true) ↔ g.Chain b x := by
  constructor
  · rintro ⟨fuel, h⟩
    induction fuel generalizing b with
    | zero => cases h
    | succ fuel ih =>
      unfold onChain at h
      split at h
      · rename_i heq
        exact heq ▸ Relation.ReflTransGen.refl
      · split at h
        · cases h
        · cases h
        · rename_i e he
          exact Relation.ReflTransGen.head ⟨e, he, rfl⟩ (ih h)
  · intro h
    induction h using Relation.ReflTransGen.head_induction_on with
    | refl =>
      refine ⟨1, ?_⟩
      unfold onChain
      rw [if_pos rfl]
    | @head b c hstep _ ih =>
      obtain ⟨fuel, ih⟩ := ih
      obtain ⟨e, he, rfl⟩ := hstep
      by_cases heq : b = x
      · refine ⟨1, ?_⟩
        unfold onChain
        rw [if_pos heq]
      · exact ⟨fuel + 1, (onChain_fall he heq).trans ih⟩

theorem onChain_false :
    (∃ fuel, onChain g x fuel b = some false) ↔ ¬ g.Chain b x ∧ g.Ends b := by
  constructor
  · rintro ⟨fuel, h⟩
    refine ⟨fun hchain => ?_, ?_⟩
    · obtain ⟨fuel', h'⟩ := onChain_true.mpr hchain
      have hone := onChain_mono h fuel'
      rw [Nat.add_comm, onChain_mono h' fuel] at hone
      cases hone
    · induction fuel generalizing b with
      | zero => cases h
      | succ fuel ih =>
        unfold onChain at h
        split at h
        · cases h
        · split at h
          · cases h
          · rename_i hstop
            exact ⟨b, Relation.ReflTransGen.refl, hstop⟩
          · rename_i e he
            exact (Cfg.ends_step ⟨e, he, rfl⟩).mpr (ih h)
  · rintro ⟨hno, d, hbd, hd⟩
    induction hbd using Relation.ReflTransGen.head_induction_on with
    | refl =>
      have hne : d ≠ x := by
        rintro rfl
        exact hno Relation.ReflTransGen.refl
      refine ⟨1, ?_⟩
      unfold onChain
      rw [if_neg hne, hd]
    | @head b c hstep _ ih =>
      have hne : b ≠ x := by
        rintro rfl
        exact hno Relation.ReflTransGen.refl
      obtain ⟨fuel, ih⟩ := ih fun hchain => hno ((Cfg.chain_step hstep hne).mpr hchain)
      obtain ⟨e, he, rfl⟩ := hstep
      exact ⟨fuel + 1, (onChain_fall he hne).trans ih⟩

theorem phiArg_mono {prev : Nat} {es : List Edge} {r : Option Nat}
    (h : phiArg g fuel prev es = some r) (m : Nat) : phiArg g (fuel + m) prev es = some r := by
  induction es generalizing r with
  | nil => exact h
  | cons e es ih =>
    unfold phiArg at h ⊢
    cases hc : onChain g e.src fuel prev with
    | none =>
      rw [hc] at h
      cases h
    | some found =>
      rw [hc] at h
      rw [onChain_mono hc m]
      cases found with
      | true => exact h
      | false =>
        obtain ⟨r', hr', hr⟩ := Option.map_eq_some_iff.mp h
        exact Option.map_eq_some_iff.mpr ⟨r', ih hr', hr⟩

/-- **What `dec_gimple_phi` takes**: an argument with an edge from the chain, where the loop comes
    back for those before and finds none. -/
theorem phiArg_iff {prev i : Nat} {es : List Edge} :
    (∃ fuel, phiArg g fuel prev es = some (some i)) ↔
      (∃ e, es[i]? = some e ∧ g.Chain prev e.src) ∧
        ∀ j < i, ∀ e, es[j]? = some e → ¬ g.Chain prev e.src ∧ g.Ends prev := by
  induction es generalizing i with
  | nil =>
    constructor
    · rintro ⟨fuel, h⟩
      cases h
    · rintro ⟨⟨e, he, -⟩, -⟩
      cases he
  | cons e es ih =>
    constructor
    · rintro ⟨fuel, h⟩
      unfold phiArg at h
      split at h
      · cases h
      · rename_i hc
        cases h
        refine ⟨⟨e, rfl, onChain_true.mp ⟨fuel, hc⟩⟩, fun j hj => ?_⟩
        cases hj
      · rename_i hc
        obtain ⟨r, hr, hi⟩ := Option.map_eq_some_iff.mp h
        obtain ⟨i', rfl, rfl⟩ := Option.map_eq_some_iff.mp hi
        obtain ⟨hfound, hbefore⟩ := ih.mp ⟨fuel, hr⟩
        refine ⟨hfound, fun j hj e' he' => ?_⟩
        cases j with
        | zero =>
          cases he'
          exact onChain_false.mp ⟨fuel, hc⟩
        | succ j => exact hbefore j (by omega) e' he'
    · rintro ⟨hfound, hbefore⟩
      cases i with
      | zero =>
        obtain ⟨e', he', hchain⟩ := hfound
        cases he'
        obtain ⟨fuel, h⟩ := onChain_true.mpr hchain
        refine ⟨fuel, ?_⟩
        unfold phiArg
        rw [h]
      | succ i =>
        obtain ⟨fuel, h⟩ := onChain_false.mpr (hbefore 0 (by omega) e rfl)
        obtain ⟨fuel', h'⟩ := ih.mpr ⟨hfound, fun j hj e' he' =>
          hbefore (j + 1) (by omega) e' he'⟩
        refine ⟨fuel + fuel', ?_⟩
        unfold phiArg
        rw [onChain_mono h fuel', Nat.add_comm fuel fuel', phiArg_mono h' fuel]
        rfl

/-! ## The blocks of a run -/

variable (g)

/-- The only edges of the blocks from `b` to `c` fall through, to blocks that are not `cur`. -/
inductive Way (cur : Nat) : Nat → Nat → Prop where
  | here (b : Nat) : Way cur b b
  | step {b c d : Nat} (hfall : g.Fall b c) (hne : c ≠ cur) (h : Way cur c d) : Way cur b d

/-- The last block of the list is the one that the edge goes to.  The block before is on a way to
    the source of the edge, or is the entry block while the first block is left. -/
def Came (s : CpState) (e : Edge) : Prop :=
  ∃ prev rest, s.cps = s.cur :: prev :: rest ∧ e ∈ g.preds s.cur ∧
    (Way g s.cur prev e.src ∨ prev = g.entry ∧ e.src = g.first)

/-- The invariant of a run. -/
structure CpInv (s : CpState) : Prop where
  came : ∀ e, s.entered = some e → Came g s e
  first : s.entered = none → s.cps = [g.entry] ∧ s.cur = g.first

variable {g}

/-- `dec_adjust_cp` follows edges to blocks without a statement. -/
theorem decAdjustCp_way {e : Edge} (h : decAdjustCp g fuel b = some (some e)) :
    (∀ cur, g.isEmpty cur = false → Way g cur b e.src) ∧ g.isEmpty e.dest = false ∧
      ∃ es, g.succs e.src = some es ∧ e ∈ es := by
  induction fuel generalizing b with
  | zero => cases h
  | succ fuel ih =>
    unfold decAdjustCp at h
    split at h
    · rename_i e' he'
      have hsuccs := Cfg.succs_of_fallEdge he'
      have hsrc : e'.src = b := g.succs_src b [e'] e' hsuccs (List.mem_singleton.mpr rfl)
      split at h
      · rename_i hempty
        obtain ⟨hway, hrest⟩ := ih h
        refine ⟨fun cur hcur => Way.step ⟨e', he', rfl⟩ (fun heq => ?_) (hway cur hcur), hrest⟩
        rw [heq, hcur] at hempty
        cases hempty
      · rename_i hempty
        cases h
        refine ⟨fun cur _ => hsrc ▸ Way.here _, by simpa using hempty, [e], ?_, ?_⟩
        · rw [hsrc]
          exact hsuccs
        · exact List.mem_singleton.mpr rfl
    · cases h

theorem start_inv (g : Cfg) : CpInv g g.start where
  came e he := by cases he
  first _ := ⟨rfl, rfl⟩

theorem mem_preds_dest {e : Edge} (he : ∃ es, g.succs e.src = some es ∧ e ∈ es) :
    e ∈ g.preds e.dest :=
  (g.mem_preds e.dest e).mpr ⟨rfl, he⟩

/-- **What a step can do.** -/
theorem cpStep_cases {s s' : CpState} {ev : CpEvent} (h : cpStep g fuel s ev = some s') :
    (∃ e, ev = .branch e ∧ e.src = s.cur ∧ e ∈ g.preds e.dest ∧ s' = s.enter g e) ∨
      (ev = .finish ∧ s' = { s with atEnd := true }) ∨
      ev = .adjust ∧ ∃ prev e, s.cps.head? = some prev ∧
        decAdjustCp g fuel prev = some (some e) ∧ s' = s.enter g e := by
  cases ev with
  | branch e =>
    dsimp only [cpStep] at h
    split at h
    · rename_i hcond
      cases h
      cases hsuccs : g.succs s.cur with
      | none =>
        rw [hsuccs] at hcond
        cases hcond.2
      | some es =>
        rw [hsuccs] at hcond
        have hsrc : e.src = s.cur := g.succs_src s.cur es e hsuccs hcond.2
        exact Or.inl ⟨e, rfl, hsrc, mem_preds_dest ⟨es, by rw [hsrc]; exact hsuccs, hcond.2⟩, rfl⟩
    · cases h
  | finish =>
    dsimp only [cpStep] at h
    split at h
    · cases h
    · cases h
      exact Or.inr (Or.inl ⟨rfl, rfl⟩)
  | adjust =>
    dsimp only [cpStep] at h
    split at h
    · cases h
    · split at h
      · rename_i e he
        cases h
        obtain ⟨prev, hprev, hadjust⟩ := Option.bind_eq_some_iff.mp he
        exact Or.inr (Or.inr ⟨rfl, prev, e, hprev, hadjust, rfl⟩)
      · cases h

/-- **Every step of the decoder keeps the invariant.** -/
theorem cpStep_inv {s s' : CpState} {ev : CpEvent} (hi : CpInv g s)
    (hstep : cpStep g fuel s ev = some s') : CpInv g s' := by
  obtain ⟨e, -, hsrc, hin, rfl⟩ | ⟨-, rfl⟩ | ⟨-, prev, e, hprev, hadjust, rfl⟩ :=
    cpStep_cases hstep
  · refine ⟨fun e' he' => ?_, fun hno => by cases hno⟩
    cases he'
    cases hentered : s.entered with
    | none =>
      obtain ⟨hcps, hcur⟩ := hi.first hentered
      exact ⟨g.entry, [], congrArg (e.dest :: ·) hcps, hin, Or.inr ⟨rfl, hsrc.trans hcur⟩⟩
    | some e₀ =>
      obtain ⟨prev, rest, hcps, -⟩ := hi.came e₀ hentered
      exact ⟨s.cur, prev :: rest, congrArg (e.dest :: ·) hcps, hin, Or.inl (hsrc ▸ Way.here _)⟩
  · exact ⟨hi.came, hi.first⟩
  · obtain ⟨hway, hfull, hsuccs⟩ := decAdjustCp_way hadjust
    refine ⟨fun e' he' => ?_, fun hno => by cases hno⟩
    cases he'
    obtain ⟨rest, hcps⟩ := List.head?_eq_some_iff.mp hprev
    exact ⟨prev, rest, congrArg (e.dest :: ·) hcps, mem_preds_dest hsuccs,
      Or.inl (hway e.dest hfull)⟩

/-! ## The argument of the edge -/

variable (g)

/-- A phi of the block gets the argument of the edge that the block was entered by. -/
def PhiRight (s : CpState) : Prop :=
  ∀ e, s.entered = some e → g.hasPhi s.cur = true →
    ∃ fuel i, decGimplePhi g fuel s = some (some i) ∧ (g.preds s.cur)[i]? = some e

/-- An edge stands before another one. -/
def Before (es : List Edge) (e' e : Edge) : Prop :=
  ∃ i j : Nat, j < i ∧ es[j]? = some e' ∧ es[i]? = some e

/-- **Where the first edge that is found is the right one.**  If the block was come to over the only
    edge of its predecessor, one that falls through, then no argument before comes from the chain
    that starts with the block, and this chain comes to an end.  If it was come to from the first
    block as that was decoded first, no argument before comes from the entry block. -/
def EdgeMet (s : CpState) : Prop :=
  ∀ e e', s.entered = some e → g.hasPhi s.cur = true → Before (g.preds s.cur) e' e →
    (g.Fall e.src s.cur → ¬ g.Chain s.cur e'.src ∧ g.Ends s.cur) ∧
      (s.cps.tail.head? = some g.entry → e.src ≠ g.entry → e'.src ≠ g.entry)

variable {g}

theorem mem_of_preds {cur : Nat} {e : Edge} (he : e ∈ g.preds cur) :
    e.dest = cur ∧ ∃ es, g.succs e.src = some es ∧ e ∈ es :=
  (g.mem_preds cur e).mp he

/-- A block with one edge that falls through has its edge into `cur` to there. -/
theorem dest_of_fall {cur c : Nat} {e : Edge} (he : e ∈ g.preds cur) (hfall : g.Fall e.src c) :
    c = cur := by
  obtain ⟨hdest, es, hes, hmem⟩ := mem_of_preds he
  obtain ⟨e₀, he₀, rfl⟩ := hfall
  cases hes.symm.trans (Cfg.succs_of_fallEdge he₀)
  obtain rfl := List.mem_singleton.mp hmem
  exact hdest

/-- The chain of a block that has other edges than one that falls through is the block. -/
theorem chain_src_iff {cur : Nat} {e e' : Edge} (he : e ∈ g.preds cur) (hne : e.src ≠ e'.src) :
    ¬ g.Chain e.src e'.src ∧ g.Ends e.src ↔
      (g.Fall e.src cur → ¬ g.Chain cur e'.src ∧ g.Ends cur) := by
  by_cases hfall : g.Fall e.src cur
  · rw [Cfg.chain_step hfall hne, Cfg.ends_step hfall]
    exact ⟨fun h _ => h, fun h => h hfall⟩
  · refine iff_of_true ⟨?_, e.src, Relation.ReflTransGen.refl, ?_⟩ fun h => absurd h hfall
    · exact Cfg.chain_stop (fun c hc => hfall (dest_of_fall he hc ▸ hc)) hne
    · obtain ⟨-, es, hes, -⟩ := mem_of_preds he
      cases hedge : g.fallEdge e.src with
      | none =>
        unfold Cfg.fallEdge at hedge
        rw [hes] at hedge
        cases hedge
      | some next =>
        cases next with
        | none => rfl
        | some e₀ => exact absurd (dest_of_fall he ⟨e₀, hedge, rfl⟩ ▸ ⟨e₀, hedge, rfl⟩) hfall

/-- No other edge into the block comes from a block on the way. -/
theorem chain_way {cur b d : Nat} {e' : Edge} (hway : Way g cur b d) (he' : e' ∈ g.preds cur) :
    (g.Chain b e'.src ↔ g.Chain d e'.src) ∧ (g.Ends b ↔ g.Ends d) := by
  induction hway with
  | here b => exact ⟨Iff.rfl, Iff.rfl⟩
  | step hfall hne _ ih =>
    refine ⟨(Cfg.chain_step hfall fun heq => ?_).trans ih.1, (Cfg.ends_step hfall).trans ih.2⟩
    subst heq
    exact hne (dest_of_fall he' hfall)

theorem way_head {cur b d : Nat} (hway : Way g cur b d) :
    b = d ∨ ∃ c, g.Fall b c ∧ c ≠ cur := by
  cases hway with
  | here => exact Or.inl rfl
  | step hfall hne _ => exact Or.inr ⟨_, hfall, hne⟩

theorem way_chain {cur b d : Nat} (hway : Way g cur b d) : g.Chain b d := by
  induction hway with
  | here b => exact Relation.ReflTransGen.refl
  | step hfall _ _ ih => exact Relation.ReflTransGen.head hfall ih

theorem entry_fall (g : Cfg) : g.Fall g.entry g.first :=
  ⟨⟨g.entry, g.first, true⟩, by unfold Cfg.fallEdge; rw [g.entry_succs]; rfl, rfl⟩

/-- An edge into a block that is on the chain of the block before is found there, or the chain does
    not end, exactly where the block is not met. -/
theorem before_iff {s : CpState} {e e' : Edge} {prev : Nat} {rest : List Nat}
    (hcps : s.cps = s.cur :: prev :: rest) (he : e ∈ g.preds s.cur) (he' : e' ∈ g.preds s.cur)
    (hne : e ≠ e') (hway : Way g s.cur prev e.src ∨ prev = g.entry ∧ e.src = g.first) :
    ¬ g.Chain prev e'.src ∧ g.Ends prev ↔
      (g.Fall e.src s.cur → ¬ g.Chain s.cur e'.src ∧ g.Ends s.cur) ∧
        (s.cps.tail.head? = some g.entry → e.src ≠ g.entry → e'.src ≠ g.entry) := by
  obtain ⟨hdest, es, hes, hmem⟩ := mem_of_preds he
  obtain ⟨hdest', es', hes', hmem'⟩ := mem_of_preds he'
  have hsrc : e.src ≠ e'.src := fun heq => by
    rw [heq] at hes
    cases hes.symm.trans hes'
    exact hne (g.edge_unique _ _ e e' hes hmem hmem' (hdest.trans hdest'.symm))
  have hprev : s.cps.tail.head? = some prev := by
    rw [hcps]
    rfl
  rw [hprev, ← chain_src_iff he hsrc]
  obtain hway | ⟨rfl, hfirst⟩ := hway
  · obtain ⟨hchain, hends⟩ := chain_way hway he'
    rw [hchain, hends]
    refine (and_iff_left fun hentry hleft heq => ?_).symm
    cases hentry
    obtain hsame | ⟨c, hfall, hother⟩ := way_head hway
    · exact hleft hsame.symm
    · rw [← heq] at hfall
      exact hother (dest_of_fall he' hfall)
  · by_cases heq : e'.src = g.entry
    · have hleft : e.src ≠ g.entry := fun hno => hsrc (hno.trans heq.symm)
      refine iff_of_false (fun h => h.1 ?_) fun h => h.2 rfl hleft heq
      rw [heq]
      exact Relation.ReflTransGen.refl
    · have hne' : g.entry ≠ e'.src := fun h => heq h.symm
      rw [Cfg.chain_step (entry_fall g) hne', Cfg.ends_step (entry_fall g), hfirst]
      exact (and_iff_left fun _ _ => heq).symm

/-- In a state of a run the argument of the edge is taken where the edges before allow it. -/
theorem phiRight_iff {s : CpState} (hi : CpInv g s) : PhiRight g s ↔ EdgeMet g s := by
  have hinj : ∀ {i j : Nat} {e : Edge}, (g.preds s.cur)[i]? = some e →
      (g.preds s.cur)[j]? = some e → i = j := fun {i j e} hi hj => by
    obtain ⟨hlt, -⟩ := List.getElem?_eq_some_iff.mp hi
    exact (List.getElem?_inj hlt (g.preds_nodup s.cur)).mp (hi.trans hj.symm)
  constructor
  · intro hright e e' hentered hphi hbefore
    obtain ⟨prev, rest, hcps, he, hway⟩ := hi.came e hentered
    obtain ⟨i, j, hji, hj, hi⟩ := hbefore
    obtain ⟨fuel, i', hfound, hi'⟩ := hright e hentered hphi
    obtain rfl := hinj hi hi'
    have hne : e ≠ e' := fun heq => by
      subst heq
      exact absurd (hinj hj hi) (by omega)
    unfold decGimplePhi at hfound
    rw [hcps] at hfound
    exact (before_iff hcps he (List.mem_of_getElem? hj) hne hway).mp
      ((phiArg_iff.mp ⟨fuel, hfound⟩).2 j hji e' hj)
  · intro hmet e hentered hphi
    obtain ⟨prev, rest, hcps, he, hway⟩ := hi.came e hentered
    obtain ⟨i, hi⟩ := List.mem_iff_getElem?.mp he
    have hchain : g.Chain prev e.src := by
      obtain hway | ⟨rfl, hfirst⟩ := hway
      · exact way_chain hway
      · rw [hfirst]
        exact Relation.ReflTransGen.single (entry_fall g)
    obtain ⟨fuel, hfound⟩ := phiArg_iff.mpr ⟨⟨e, hi, hchain⟩, fun j hji e' hj => by
      have hne : e ≠ e' := fun heq => by
        subst heq
        exact absurd (hinj hj hi) (by omega)
      exact (before_iff hcps he (List.mem_of_getElem? hj) hne hway).mpr
        (hmet e e' hentered hphi ⟨i, j, hji, hj, hi⟩)⟩
    refine ⟨fuel, i, ?_, hi⟩
    unfold decGimplePhi
    rw [hcps]
    exact hfound

/-- **In every state of every run, a phi gets the argument of the edge that its block was entered
    by exactly where no edge before is found instead of it.** -/
theorem phi_edge_exact (g : Cfg) (fuel : Nat) (evs : List CpEvent) :
    Visits (cpStep g fuel) (fun s => PhiRight g s ↔ EdgeMet g s) g.start evs :=
  (visits_of_step (fun _ _ _ hi hstep => cpStep_inv hi hstep) evs (start_inv g)).mono
    fun _ hi => phiRight_iff hi

/-! ## A loop -/

/-- A graph from its edges, those into a block in the order of the list. -/
def Cfg.ofEdges (edges : List Edge) (entry first : Nat) (hasPhi hasSeq : Nat → Bool)
    (hentry : edges.filter (·.src = entry) = [⟨entry, first, true⟩])
    (hone : ∀ e ∈ edges, ∀ e' ∈ edges, e.src = e'.src → e.dest = e'.dest → e = e')
    (hnodup : edges.Nodup) : Cfg where
  entry := entry
  first := first
  hasPhi := hasPhi
  hasSeq := hasSeq
  succs b := some (edges.filter (·.src = b))
  preds b := edges.filter (·.dest = b)
  entry_succs := congrArg some hentry
  mem_preds b e := by simp [and_comm]
  succs_src b es e hes he := by
    cases hes
    exact of_decide_eq_true (List.mem_filter.mp he).2
  edge_unique b es e e' hes he he' hdest := by
    cases hes
    obtain ⟨hmem, hsrc⟩ := List.mem_filter.mp he
    obtain ⟨hmem', hsrc'⟩ := List.mem_filter.mp he'
    exact hone e hmem e' hmem'
      ((of_decide_eq_true hsrc).trans (of_decide_eq_true hsrc').symm) hdest
  preds_nodup b := hnodup.filter _

/-- Block 2, a phi, is the head of a loop with the blocks 2 and 3; the edge back is the first one
    into it. -/
def loopCfg : Cfg :=
  .ofEdges [⟨0, 1, true⟩, ⟨3, 2, false⟩, ⟨1, 2, true⟩, ⟨2, 3, true⟩, ⟨3, 4, false⟩] 0 1 (· = 2)
    (· ≠ 0) (by decide) (by decide) (by decide)

/-- The loop is come to from block 1, and the phi gets the argument of the edge back. -/
theorem edge_back_found_first : ¬ Visits (cpStep loopCfg 1) (PhiRight loopCfg) loopCfg.start
    [.finish, .adjust, .finish, .adjust] := by
  intro hvisits
  have hright := visits_iff_exec.mp hvisits _ [] ⟨[2, 1, 0], 2, false, some ⟨1, 2, true⟩⟩
    (List.append_nil _).symm rfl
  obtain ⟨fuel, i, hfound, hi⟩ := hright _ rfl rfl
  obtain ⟨-, hbefore⟩ := phiArg_iff.mp ⟨fuel, hfound⟩
  have hpos : 0 < i := by
    cases i with
    | zero => cases hi
    | succ i => exact Nat.succ_pos i
  exact (hbefore 0 hpos ⟨3, 2, false⟩ rfl).1 (onChain_true.mp ⟨3, rfl⟩)

end Srcinv.Analysis
