import Srcinv.Lib.Chain
import Srcinv.Analysis.PhiEdges

/-!
# The loops of `dec_adjust_cp` and `dec_gimple_phi`

Both follow the only edges that fall through and remember no block: `dec_adjust_cp` goes on while
the blocks have no statement, `dec_gimple_phi` until it finds the source of an argument's edge.
Endless loops of the source code are cycles of such edges.

* `chainWalk` — the loop of `dec_gimple_phi`, with the read of a null pointer told apart.
* `decAdjustCp_ends_iff`, `chainWalk_ends_iff` — both loops as chains of pointers.
* `walks_exact` — in a finite graph each loop comes to an end exactly where it runs into no cycle.
-/

namespace Srcinv.Analysis

open Srcinv.Lib

namespace Cfg

variable (g : Cfg)

/-- `x_n_basic_blocks` is `n`: no other block has an edge. -/
def HasBlocks (n : Nat) : Prop := ∀ b es e, g.succs b = some es → e ∈ es → b < n

/-- The block that the only edge out of a block falls through to. -/
def fallTo (b : Nat) : Option Nat := (g.fallEdge b).join.map Edge.dest

/-- This block, if it has no statement. -/
def emptyTo (b : Nat) : Option Nat := (g.fallTo b).filter g.isEmpty

variable {g} {b c : Nat}

theorem fallTo_iff : PointsAt g.fallTo b c ↔ g.Fall b c := by
  unfold PointsAt fallTo Fall
  rw [Option.map_eq_some_iff]
  simp only [Option.join_eq_some_iff]

theorem leads_fallTo : Leads g.fallTo b c ↔ g.Chain b c := by
  have hrel : PointsAt g.fallTo = g.Fall := by
    funext b c
    exact propext fallTo_iff
  unfold Leads Chain
  rw [hrel]

theorem emptyTo_iff : PointsAt g.emptyTo b c ↔ g.Fall b c ∧ g.isEmpty c = true := by
  rw [← fallTo_iff]
  unfold PointsAt emptyTo
  exact Option.filter_eq_some_iff

/-- Only blocks of the function have pointers. -/
theorem mem_blocks {n : Nat} (hn : g.HasBlocks n) (h : PointsAt g.fallTo b c) :
    b ∈ Finset.range n := by
  obtain ⟨e, he, -⟩ := fallTo_iff.mp h
  exact Finset.mem_range.mpr (hn b [e] e (succs_of_fallEdge he) (List.mem_singleton.mpr rfl))

end Cfg

/-! ## `dec_adjust_cp` -/

variable {g : Cfg} {b src fuel : Nat}

theorem decAdjustCp_fall {e : Edge} (he : g.fallEdge b = some (some e)) :
    decAdjustCp g (fuel + 1) b =
      if g.isEmpty e.dest then decAdjustCp g fuel e.dest else some (some e) := by
  rw [decAdjustCp, he]

/-- The loop of `dec_adjust_cp` follows the blocks without a statement. -/
theorem decAdjustCp_ends_iff :
    (∃ fuel r, decAdjustCp g fuel b = some r) ↔ Ends g.emptyTo b := by
  constructor
  · rintro ⟨fuel, r, h⟩
    induction fuel generalizing b with
    | zero => cases h
    | succ fuel ih =>
      refine .intro _ fun c hc => ?_
      obtain ⟨⟨e, he, rfl⟩, hempty⟩ := Cfg.emptyTo_iff.mp hc
      rw [decAdjustCp_fall he, if_pos hempty] at h
      exact ih h
  · intro h
    induction h with
    | intro b _ ih =>
      cases hedge : g.fallEdge b with
      | none =>
        refine ⟨1, none, ?_⟩
        rw [decAdjustCp, hedge]
      | some next =>
        cases next with
        | none =>
          refine ⟨1, none, ?_⟩
          rw [decAdjustCp, hedge]
        | some e =>
          by_cases hempty : g.isEmpty e.dest = true
          · obtain ⟨fuel, r, h⟩ := ih e.dest (Cfg.emptyTo_iff.mpr ⟨⟨e, hedge, rfl⟩, hempty⟩)
            refine ⟨fuel + 1, r, ?_⟩
            rw [decAdjustCp_fall hedge, if_pos hempty]
            exact h
          · refine ⟨1, some e, ?_⟩
            rw [decAdjustCp_fall hedge, if_neg hempty]

/-! ## `dec_gimple_phi` -/

/-- How the loop from the block before comes to an end: at the source of the edge, at a block where
    the chain does not go on, or at a null `succs`, which is read. -/
inductive ChainEnd where
  | found
  | stopped
  | nullSuccs
  deriving DecidableEq, Repr

/-- The value of `found`. -/
def ChainEnd.found? : ChainEnd → Option Bool
  | .found => some true
  | .stopped => some false
  | .nullSuccs => none

/-- The loop from the block before to the source of an edge; `none` is an endless loop. -/
def chainWalk (g : Cfg) (src : Nat) : Nat → Nat → Option ChainEnd
  | 0, _ => none
  | fuel + 1, b =>
    if b = src then some .found
    else
      match g.fallEdge b with
      | none => some .nullSuccs
      | some none => some .stopped
      | some (some e) => chainWalk g src fuel e.dest

/-- The loop over the arguments, up to the first that is found. -/
def phiWalks (g : Cfg) (fuel prev : Nat) : List Edge → Option ChainEnd
  | [] => some .stopped
  | e :: es =>
    match chainWalk g e.src fuel prev with
    | some .stopped => phiWalks g fuel prev es
    | r => r

theorem onChain_eq : onChain g src fuel b = (chainWalk g src fuel b).bind ChainEnd.found? := by
  induction fuel generalizing b with
  | zero => rfl
  | succ fuel ih =>
    unfold onChain chainWalk
    by_cases heq : b = src
    · rw [if_pos heq, if_pos heq]
      rfl
    · rw [if_neg heq, if_neg heq]
      cases hedge : g.fallEdge b with
      | none => rfl
      | some next =>
        cases next with
        | none => rfl
        | some e => exact ih

/-- Where `dec_gimple_phi` gives a result, so does the loop with null pointers told apart. -/
theorem phiArg_eq {prev : Nat} {es : List Edge} :
    (phiArg g fuel prev es).map Option.isSome = (phiWalks g fuel prev es).bind ChainEnd.found? := by
  induction es with
  | nil => rfl
  | cons e es ih =>
    unfold phiArg phiWalks
    rw [onChain_eq]
    cases hwalk : chainWalk g e.src fuel prev with
    | none => rfl
    | some r =>
      cases r with
      | found => rfl
      | nullSuccs => rfl
      | stopped =>
        show ((phiArg g fuel prev es).map (Option.map (· + 1))).map Option.isSome =
          (phiWalks g fuel prev es).bind ChainEnd.found?
        rw [← ih]
        cases phiArg g fuel prev es with
        | none => rfl
        | some i => cases i <;> rfl

theorem chainWalk_fall {e : Edge} (he : g.fallEdge b = some (some e)) (hne : b ≠ src) :
    chainWalk g src (fuel + 1) b = chainWalk g src fuel e.dest := by
  rw [chainWalk, if_neg hne, he]

theorem chainWalk_mono {r : ChainEnd} (h : chainWalk g src fuel b = some r) (m : Nat) :
    chainWalk g src (fuel + m) b = some r := by
  induction fuel generalizing b with
  | zero => cases h
  | succ fuel ih =>
    have hfuel : fuel + 1 + m = fuel + m + 1 := by omega
    rw [hfuel]
    unfold chainWalk at h ⊢
    split at h
    · rename_i heq
      rw [if_pos heq]
      exact h
    · rename_i heq
      rw [if_neg heq]
      split at h
      · exact h
      · exact h
      · exact ih h

/-- The loop from the block before comes to an end at the source, or with the chain. -/
theorem chainWalk_ends_iff :
    (∃ fuel r, chainWalk g src fuel b = some r) ↔ g.Chain b src ∨ Ends g.fallTo b := by
  constructor
  · rintro ⟨fuel, r, h⟩
    induction fuel generalizing b with
    | zero => cases h
    | succ fuel ih =>
      by_cases heq : b = src
      · exact Or.inl (heq ▸ Relation.ReflTransGen.refl)
      · cases hnext : g.fallTo b with
        | none => exact Or.inr (Ends.of_none hnext)
        | some c =>
          obtain ⟨e, he, rfl⟩ := Cfg.fallTo_iff.mp hnext
          rw [chainWalk_fall he heq] at h
          obtain hfound | hends := ih h
          · exact Or.inl (Relation.ReflTransGen.head ⟨e, he, rfl⟩ hfound)
          · exact Or.inr ((Lib.ends_step hnext).mpr hends)
  · rintro (hfound | hends)
    · obtain ⟨fuel, h⟩ := onChain_true.mpr hfound
      rw [onChain_eq] at h
      obtain ⟨r, hr, -⟩ := Option.bind_eq_some_iff.mp h
      exact ⟨fuel, r, hr⟩
    · induction hends with
      | intro b _ ih =>
        by_cases heq : b = src
        · refine ⟨1, .found, ?_⟩
          rw [chainWalk, if_pos heq]
        · cases hedge : g.fallEdge b with
          | none =>
            refine ⟨1, .nullSuccs, ?_⟩
            rw [chainWalk, if_neg heq, hedge]
          | some next =>
            cases next with
            | none =>
              refine ⟨1, .stopped, ?_⟩
              rw [chainWalk, if_neg heq, hedge]
            | some e =>
              obtain ⟨fuel, r, h⟩ := ih e.dest (Cfg.fallTo_iff.mpr ⟨e, hedge, rfl⟩)
              exact ⟨fuel + 1, r, (chainWalk_fall hedge heq).trans h⟩

theorem phiWalks_found {prev : Nat} {e : Edge} {es : List Edge} {r : ChainEnd}
    (h : chainWalk g e.src fuel prev = some r) (hr : r ≠ .stopped) :
    phiWalks g fuel prev (e :: es) = some r := by
  rw [phiWalks, h]
  cases r with
  | stopped => exact absurd rfl hr
  | found => rfl
  | nullSuccs => rfl

/-- If the chain ends, the loop over the arguments does. -/
theorem phiWalks_of_ends {prev : Nat} (hends : Ends g.fallTo prev) (es : List Edge) :
    ∃ fuel r, ∀ m, phiWalks g (fuel + m) prev es = some r := by
  induction es with
  | nil => exact ⟨0, .stopped, fun _ => rfl⟩
  | cons e es ih =>
    have hwalk : ∃ fuel r, chainWalk g e.src fuel prev = some r :=
      chainWalk_ends_iff.mpr (Or.inr hends)
    obtain ⟨fuel, r, h⟩ := hwalk
    by_cases hr : r = .stopped
    · subst hr
      obtain ⟨fuel', r', h'⟩ := ih
      refine ⟨fuel + fuel', r', fun m => ?_⟩
      have hm : fuel + fuel' + m = fuel + (fuel' + m) := by omega
      rw [phiWalks, hm, chainWalk_mono h, ← hm, Nat.add_comm fuel, Nat.add_assoc]
      exact h' (fuel + m)
    · exact ⟨fuel, r, fun m => phiWalks_found (chainWalk_mono h m) hr⟩

/-- **The loop over the arguments comes to an end where the first argument is found or the chain
    ends.** -/
theorem phiWalks_ends_iff {prev : Nat} {es : List Edge} :
    (∃ fuel r, phiWalks g fuel prev es = some r) ↔
      ∀ e, es.head? = some e → g.Chain prev e.src ∨ Ends g.fallTo prev := by
  cases es with
  | nil => exact iff_of_true ⟨0, .stopped, rfl⟩ fun e he => (by cases he)
  | cons e es =>
    constructor
    · rintro ⟨fuel, r, h⟩ e' he'
      cases he'
      cases hwalk : chainWalk g e.src fuel prev with
      | none =>
        rw [phiWalks, hwalk] at h
        cases h
      | some r' => exact chainWalk_ends_iff.mp ⟨fuel, r', hwalk⟩
    · intro h
      obtain hfound | hends := h e rfl
      · obtain ⟨fuel, hwalk⟩ := onChain_true.mpr hfound
        rw [onChain_eq] at hwalk
        obtain ⟨r, hr, htrue⟩ := Option.bind_eq_some_iff.mp hwalk
        refine ⟨fuel, r, phiWalks_found hr fun hstop => ?_⟩
        subst hstop
        cases htrue
      · obtain ⟨fuel, r, h⟩ := phiWalks_of_ends hends (e :: es)
        exact ⟨fuel, r, h 0⟩

/-! ## Cycles -/

/-- **In a finite graph** `dec_adjust_cp` comes to an end exactly where it runs into no cycle of
    blocks without a statement, and the loops of `dec_gimple_phi` where the source of the first
    argument's edge is on the chain or the chain runs into no cycle. -/
theorem walks_exact (g : Cfg) {n : Nat} (hn : g.HasBlocks n) (prev : Nat) (args : List Edge) :
    ((∃ fuel r, decAdjustCp g fuel prev = some r) ↔
        ¬ ∃ c, Leads g.emptyTo prev c ∧ Revisits g.emptyTo c) ∧
      ((∃ fuel r, phiWalks g fuel prev args = some r) ↔
        ∀ e, args.head? = some e → g.Chain prev e.src ∨
          ¬ ∃ c, g.Chain prev c ∧ Revisits g.fallTo c) := by
  have hempty : ∀ b c, PointsAt g.emptyTo b c → b ∈ Finset.range n := fun b c h =>
    Cfg.mem_blocks hn (Cfg.fallTo_iff.mpr (Cfg.emptyTo_iff.mp h).1)
  have hfall : Ends g.fallTo prev ↔ ¬ ∃ c, g.Chain prev c ∧ Revisits g.fallTo c := by
    rw [ends_iff fun b c h => Cfg.mem_blocks hn h]
    simp only [Cfg.leads_fallTo]
  refine ⟨decAdjustCp_ends_iff.trans (ends_iff hempty), ?_⟩
  rw [phiWalks_ends_iff, hfall]

/-- `for (;;);` after a statement: block 2 is empty and falls through to itself. -/
def endlessCfg : Cfg :=
  .ofEdges [⟨0, 1, true⟩, ⟨1, 2, true⟩, ⟨2, 2, true⟩] 0 1 (fun _ => false) (· = 1)
    (by decide) (by decide) (by decide)

theorem endlessCfg_hasBlocks : endlessCfg.HasBlocks 3 := by
  intro b es e hes he
  cases hes
  obtain ⟨hmem, hsrc⟩ := List.mem_filter.mp he
  have hsrc' : e.src = b := of_decide_eq_true hsrc
  have hall : ∀ e ∈ [(⟨0, 1, true⟩ : Edge), ⟨1, 2, true⟩, ⟨2, 2, true⟩], e.src < 3 := by decide
  have := hall e hmem
  omega

theorem walks_exact_endless :
    ((∃ fuel r, decAdjustCp endlessCfg fuel 2 = some r) ↔
        ¬ ∃ c, Leads endlessCfg.emptyTo 2 c ∧ Revisits endlessCfg.emptyTo c) ∧
      ((∃ fuel r, phiWalks endlessCfg fuel 2 [⟨0, 1, true⟩] = some r) ↔
        ∀ e, [(⟨0, 1, true⟩ : Edge)].head? = some e → endlessCfg.Chain 2 e.src ∨
          ¬ ∃ c, endlessCfg.Chain 2 c ∧ Revisits endlessCfg.fallTo c) :=
  walks_exact endlessCfg endlessCfg_hasBlocks 2 [⟨0, 1, true⟩]

/-- After the last statement of block 1, `dec_adjust_cp` goes round in block 2. -/
theorem endless_loop_not_left :
    exec (cpStep endlessCfg 1) endlessCfg.start [.finish, .adjust, .finish] =
        some ⟨[1, 0], 1, true, some ⟨0, 1, true⟩⟩ ∧
      ¬ ∃ fuel r, decAdjustCp endlessCfg fuel 1 = some r := by
  refine ⟨rfl, fun h => ?_⟩
  have hends := decAdjustCp_ends_iff.mp h
  have hback : Revisits endlessCfg.emptyTo 2 := .single rfl
  exact not_revisits_of_leads hends (.single rfl) hback

end Srcinv.Analysis
