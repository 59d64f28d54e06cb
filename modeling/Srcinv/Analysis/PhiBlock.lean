import Srcinv.Analysis.SsaReads
import Srcinv.Analysis.PhiEdges
import Srcinv.Lib.Moves

/-!
# The phis of a block (`analysis/gcc/c.cc`, `si_gcc.h`)

The phis of a block stand for one assignment of all results at once.  The decoder goes from one to
the next, so that a phi whose argument is the result of an earlier one takes what that has got
already; and a name that is read from its variable takes what the latest version of it was given.

* `phiStep` — `dec_gimple_phi` of the phi that `curpos` is at, and the way to the next one.
* `ssaPhi_moves` — what one phi moves.
* `phiBlock_exact` — the results get the values that the arguments of the edge had exactly where
  what is moved comes from data states with these values.
* `swap_lost` — two phis that exchange their values.
-/

namespace Srcinv.Analysis

open Srcinv.Lib

variable {E : DataEnv} (N : SsaNames E)

/-! ## The statements of a block -/

/-- A phi: its result and the argument of each edge, by the number of the edge in `preds`.  A
    constant is a name without a variable that no phi defines. -/
structure Phi where
  result : Nat
  args : Nat → Nat

/-- `il.gimple` of a block; the statements after the phis are numbers. -/
structure BlockSeq where
  phiNodes : List Phi
  seq : List Nat

/-- A statement with those that its `next` leads to. -/
inductive GimpleSeq where
  | phi (gs : Phi) (next : List Phi)
  | stmt (gs : Nat) (next : List Nat)
  | null

/-- The phis from a statement on. -/
def GimpleSeq.phis : GimpleSeq → List Phi
  | phi gs next => gs :: next
  | _ => []

/-- `bb->il.gimple.seq`. -/
def BlockSeq.first (B : BlockSeq) : GimpleSeq :=
  match B.seq with
  | gs :: next => .stmt gs next
  | [] => .null

def bbFirstGimple (B : BlockSeq) : GimpleSeq :=
  match B.phiNodes with
  | gs :: next => .phi gs next
  | [] => B.first

/-- After the last of the `phi_nodes` comes the first of `seq`. -/
def bbNextGimple (B : BlockSeq) : GimpleSeq → GimpleSeq
  | .phi _ (gs :: next) => .phi gs next
  | .phi _ [] => B.first
  | .stmt _ (gs :: next) => .stmt gs next
  | _ => .null

theorem phis_bbFirstGimple (B : BlockSeq) : (bbFirstGimple B).phis = B.phiNodes := by
  unfold bbFirstGimple BlockSeq.first
  cases B.phiNodes with
  | cons gs next => rfl
  | nil => cases B.seq <;> rfl

theorem phis_bbNextGimple (B : BlockSeq) (gs : Phi) (next : List Phi) :
    (bbNextGimple B (.phi gs next)).phis = next := by
  cases next with
  | cons gs' next => rfl
  | nil =>
    unfold bbNextGimple BlockSeq.first
    cases B.seq <;> rfl

/-- The frame while the phis of a block are decoded. -/
structure PhiState where
  frame : SsaState
  curpos : GimpleSeq

/-- What one call of `dec_gimple_phi` is given: the places that the types are found at, and the
    initial values that are drawn. -/
structure PhiDraw where
  i : Nat
  j : Nat
  rand : List Nat → Nat
  rand' : List Nat → Nat

variable (fuel : Nat) (g : Cfg) (gfuel : Nat) (c : CpState) (B : BlockSeq)

/-- `dec_gimple_phi` with success, of the phi that `curpos` is at. -/
def phiStep (s : PhiState) (d : PhiDraw) : Option PhiState :=
  match s.curpos with
  | .phi gs _ =>
    match decGimplePhi g gfuel c with
    | some (some k) =>
      (ssaStep N fuel s.frame (.phi gs.result (gs.args k) d.i d.j d.rand d.rand')).map
        fun t => ⟨t, bbNextGimple B s.curpos⟩
    | _ => none
  | _ => none

/-! ## What must hold -/

/-- The data state that the name `n` is read from.  A default definition that has no value yet is
    read from its variable, as is a name that still refers to it. -/
def home (h : DsHeap) (n : Nat) : Nat :=
  match N.var n with
  | none => N.own n
  | some v =>
    if (h (N.own n)).isRef ∨ N.defaultDef n = true ∧ (h (N.own n)).isUnset = true then v
    else N.own n

/-- The name `n` has the value `w`. -/
def Holds (h : DsHeap) (n : Nat) (w : DataStateVal) : Prop :=
  (h (home N h n)).isUnset = false ∧ (h (home N h n)).Same w

/-- **Each phi gets the value that its argument for the edge had when the block was entered**, the
    address of an array as that of its first element. -/
def PhisRight (h : DsHeap) (phis : List Phi) (h' : DsHeap) : Prop :=
  ∀ e k, c.entered = some e → (g.preds c.cur)[k]? = some e →
    ∀ p ∈ phis, ∀ w, Holds N h (p.args k) w →
      ReadsAs N h' p.result (N.taken (N.own (p.args k)) w)

/-! ## Where the values come from -/

/-- Where the value that a phi takes is.  The result refers to its variable by then. -/
def takenFrom (view : Nat → Nat) (n m : Nat) : Nat :=
  if m = n then (N.var n).getD (N.own n) else view m

/-- The value goes to the result and its variable, and to the argument itself if that had none. -/
def phiMove (h : DsHeap) (view : Nat → Nat) (n m : Nat) : Move Nat where
  dsts := N.own n :: (N.var n).toList ++ if (h (N.own m)).isUnset then [N.own m] else []
  src := takenFrom N view n m

/-- Where the names are read from after the phi. -/
def viewAfter (h : DsHeap) (view : Nat → Nat) (n m : Nat) : Nat → Nat :=
  Function.update (Function.update view m (if (h (N.own m)).isUnset then N.own m else view m)) n
    (N.own n)

/-- The moves of phis, given as results and arguments. -/
def phiMoves (h : DsHeap) : (Nat → Nat) → List (Nat × Nat) → List (Move Nat)
  | _, [] => []
  | view, (n, m) :: ps => phiMove N h view n m :: phiMoves h (viewAfter N h view n m) ps

/-- The argument with the number `k` is taken: the first with an edge from the chain that starts at
    the block before. -/
def TakesArg (k : Nat) : Prop :=
  ∃ prev, c.cps.tail.head? = some prev ∧
    (∃ e, (g.preds c.cur)[k]? = some e ∧ g.Chain prev e.src) ∧
      ∀ j < k, ∀ e, (g.preds c.cur)[j]? = some e → ¬ g.Chain prev e.src ∧ g.Ends prev

/-- The data state that has, when the block is entered, what the phi `p` gets. -/
def phiOrigin (h : DsHeap) (phis : List Phi) (k : Nat) (p : Phi) : Nat :=
  origin (phiMoves N h (home N h) (phis.map fun q => (q.result, q.args k))) (N.own p.result)

/-- It has the content of the other one, if that has any. -/
def HasFrom (u u₀ : DataStateVal) : Prop := u₀.isUnset = false → u.Same u₀

/-- What phis take from the data states. -/
def takenHeap (h : DsHeap) (x : Nat) : DataStateVal := N.taken x (h x)

/-- **Where the order does not matter**: what each phi gets comes from a data state with the value
    that its argument for the edge has when the block is entered. -/
def PhisMet (h : DsHeap) (phis : List Phi) : Prop :=
  ∀ e k k', c.entered = some e → (g.preds c.cur)[k]? = some e → TakesArg g c k' →
    ∀ p ∈ phis, HasFrom (takenHeap N h (phiOrigin N h phis k' p))
      (takenHeap N h (home N h (p.args k)))

/-- What the phis get has been there when the block was entered. -/
def PhisThere (h : DsHeap) (phis : List Phi) : Prop :=
  ∀ k', TakesArg g c k' → ∀ p ∈ phis, (h (phiOrigin N h phis k' p)).isUnset = false

/-! ## Contents -/

variable {N} {h h' : DsHeap} {n m : Nat}

theorem HasFrom.refl (u : DataStateVal) : HasFrom u u := fun _ => .refl u

theorem HasFrom.of_same {u u₀ : DataStateVal} (h : u.Same u₀) : HasFrom u u₀ := fun _ => h

theorem HasFrom.trans {u u₁ u₀ : DataStateVal} (h : HasFrom u u₁) (h' : HasFrom u₁ u₀) :
    HasFrom u u₀ := by
  intro hset
  have hsame := h' hset
  exact (h (hsame.isUnset.trans hset)).trans hsame

/-- The names and variables are registers; nothing is said of their values. -/
abbrev Registers (N : SsaNames E) (h : DsHeap) : Prop := SsaInv N h fun _ => none

theorem SsaInv.registers {latest : Nat → Option DataStateVal} (hi : SsaInv N h latest) :
    Registers N h := ⟨hi.vars, hi.owns, fun _ _ hw => by cases hw⟩

theorem isUnset_of_isRef {u : DataStateVal} (h : u.isRef = true) : u.isUnset = false := by
  cases u with
  | sec2 raw type v2 => rfl
  | _ => cases h

/-- A name with a scalar of its own is read from there. -/
theorem home_own (hscalar : (h (N.own n)).isScalar = true) (hset : (h (N.own n)).isUnset = false) :
    home N h n = N.own n := by
  unfold home
  cases N.var n with
  | none => rfl
  | some v =>
    simp only [DataStateVal.isScalar_isRef hscalar, hset, Bool.false_eq_true, and_false, or_self,
      if_false]

theorem home_ref {v : Nat} (hvar : N.var n = some v) (href : (h (N.own n)).isRef = true) :
    home N h n = v := by
  unfold home
  rw [hvar]
  simp only [href, true_or, if_true]

theorem home_default {v : Nat} (hvar : N.var n = some v) (hdef : N.defaultDef n = true)
    (hunset : (h (N.own n)).isUnset = true) : home N h n = v := by
  unfold home
  rw [hvar]
  simp only [hdef, hunset, and_self, or_true, if_true]

theorem home_congr (hx : h' (N.own n) = h (N.own n)) : home N h' n = home N h n := by
  unfold home
  rw [hx]

/-- But for default definitions without a value, names are read from where they lead to. -/
theorem home_eq_target (hi : Registers N h)
    (hno : ¬ (N.defaultDef n = true ∧ (h (N.own n)).isUnset = true)) :
    home N h n = target h (N.own n) := by
  obtain ⟨hscalar, -⟩ | ⟨v, raw, off, b, hvar, href⟩ := hi.owns n
  · rw [target_scalar hscalar]
    unfold home
    cases N.var n with
    | none => rfl
    | some v =>
      simp only [DataStateVal.isScalar_isRef hscalar, hno, Bool.false_eq_true, or_self, if_false]
  · rw [target_ref href]
    exact home_ref hvar (by rw [href]; rfl)

/-- A name with a scalar of its own has that as its value. -/
theorem ssaInv_latest (hi : Registers N h) (hscalar : (h (N.own n)).isScalar = true)
    {w : DataStateVal} (hset : (h (N.own n)).isUnset = false) (hsame : (h (N.own n)).Same w) :
    SsaInv N h (Function.update (fun _ => none) n (some w)) := by
  refine ⟨hi.vars, hi.owns, fun k w' hw' => ?_⟩
  by_cases hk : k = n
  · rw [hk, Function.update_self] at hw'
    cases hw'
    rw [hk, target_scalar hscalar]
    exact ⟨hsame.isUnset.symm.trans hset, hsame⟩
  · rw [Function.update_of_ne hk] at hw'
    cases hw'

/-! ## The address of an array -/

theorem DataStateVal.Same.withBits {u u₀ : DataStateVal} (h : u.Same u₀) (bits : Nat) :
    (u.withBits bits).Same (u₀.withBits bits) := by
  have hraw : ∀ v : DataStateVal, (v.withBits bits).withRaw 0 = (v.withRaw 0).withBits bits := by
    intro v
    unfold DataStateVal.withBits
    split <;> rename_i hv
    · rfl
    · cases v with
      | sec2 raw type v2 =>
        cases type with
        | addr => exact absurd rfl (hv raw v2)
        | ref => rfl
      | _ => rfl
  unfold DataStateVal.Same at h ⊢
  rw [hraw, hraw, h]

theorem DataStateVal.Same.taken {u u₀ : DataStateVal} (h : u.Same u₀) (x : Nat) :
    (N.taken x u).Same (N.taken x u₀) := by
  unfold SsaNames.taken
  split
  · exact h
  · exact h.withBits _

theorem HasFrom.taken {u u₀ : DataStateVal} (h : HasFrom u u₀) (x : Nat) :
    HasFrom (N.taken x u) (N.taken x u₀) := by
  intro hset
  rw [isUnset_taken] at hset
  exact (h hset).taken x

/-- A phi takes a value once. -/
theorem taken_taken (x : Nat) (w : DataStateVal) : N.taken x (N.taken x w) = N.taken x w := by
  unfold SsaNames.taken
  split
  · rfl
  · unfold DataStateVal.withBits
    cases w with
    | sec2 raw type v2 => cases type <;> rfl
    | _ => rfl

/-- The address of an array is read from its own state. -/
theorem home_elem (h : DsHeap) {m : Nat} (hm : (N.elemBits (N.own m)).isSome) :
    home N h m = N.own m := by
  unfold home
  rw [N.elem_own m hm]

theorem elemBits_home (h : DsHeap) (m : Nat) : N.elemBits (home N h m) = N.elemBits (N.own m) := by
  by_cases hm : (N.elemBits (N.own m)).isSome
  · rw [home_elem h hm]
  · unfold home
    cases hvar : N.var m with
    | none => rfl
    | some v =>
      dsimp only
      split
      · rw [N.elem_var m v hvar, Option.not_isSome_iff_eq_none.mp hm]
      · rfl

theorem taken_congr {x y : Nat} (h : N.elemBits x = N.elemBits y) (w : DataStateVal) :
    N.taken x w = N.taken y w := by
  unfold SsaNames.taken
  rw [h]

/-- What a name with a scalar of its own is read as. -/
theorem readsAs_own (hi : Registers N h) (hscalar : (h (N.own n)).isScalar = true)
    (hset : (h (N.own n)).isUnset = false) {w : DataStateVal} :
    ReadsAs N h n w ↔ (h (N.own n)).Same w := by
  constructor
  · intro hreads
    obtain ⟨fuel, h₁, h₂, t, u, hop, hread, hget, hsame⟩ := hreads fun _ => 0
    obtain ⟨hi₁, -, hready⟩ := operand_inv (ssaInv_latest hi hscalar hset (.refl _)) hop
    obtain ⟨hlocs, hi₂, hs₂, -⟩ := read_inv hi₁ hready hread
    cases hlocs
    rw [get?_dsVal h₂ rfl] at hget
    cases hget
    have hlatest := (hi₂.latest n _ (Function.update_self ..)).2
    rw [hs₂.target (hi₁.owns n)] at hlatest
    exact hlatest.symm.trans hsame
  · intro hsame
    have hlatest : Function.update (fun _ : Nat => (none : Option DataStateVal)) n (some w) n =
        some w := Function.update_self ..
    exact (ssaInv_latest hi hscalar hset hsame).isolated n w hlatest

/-! ## One phi -/

variable {fuel : Nat} {rand rand' : List Nat → Nat}

/-- The name that is looked up is left as it is, or is a default definition that takes the value of
    its variable. -/
theorem operand_home (hi : Registers N h) (hx : ssaOperand N fuel rand h m = some h') :
    (∀ k, k ≠ m → h' (N.own k) = h (N.own k)) ∧
      (h' (N.own m) = h (N.own m) ∧
          ¬ (N.defaultDef m = true ∧ (h (N.own m)).isUnset = true) ∨
        (h (N.own m)).isUnset = true ∧ (h' (N.own m)).isScalar = true ∧
          (h' (N.own m)).isUnset = false ∧ ∃ v, N.var m = some v ∧ N.defaultDef m = true ∧
            HasFrom (h' (N.own m)) (h v)) := by
  unfold ssaOperand at hx
  split at hx
  · rename_i hvar
    cases hx
    refine ⟨fun _ _ => rfl, Or.inl ⟨rfl, fun hdef => ?_⟩⟩
    have hfalse := N.default_var m hvar
    rw [hdef.1] at hfalse
    cases hfalse
  · rename_i v hvar
    obtain ⟨h₁, hx₁, hi₁, hs₁, howns, htmp⟩ := getDsVar_inv hi hvar
    simp only [hx₁, Option.bind_eq_bind, Option.bind_some] at hx
    split at hx
    · rename_i raw hdef hunk
      split at hx
      · rename_i h₂ srcs hread
        have hunset : (h₁ (N.own m)).isUnset = true := by
          rw [hunk]
          rfl
        obtain ⟨u, rfl, hscalar, hset, hkeep⟩ := default_copy hi₁ hvar htmp hunset hread hx
        rw [howns m] at hunset
        rw [Function.update_self]
        refine ⟨fun k hk => ?_, Or.inr ⟨hunset, hscalar, hset, v, hvar, hdef, fun hv => ?_⟩⟩
        · rw [Function.update_of_ne fun heq => hk (N.own_inj k m heq),
            Function.update_of_ne (N.own_ne_var k m v hvar)]
          exact howns k
        · have hsame := hs₁.vars m v hvar hv
          rw [hkeep (hsame.isUnset.trans hv)]
          exact hsame
      · cases hx
    · rename_i hno
      cases hx
      refine ⟨fun k _ => howns k, Or.inl ⟨howns m, fun hdef => ?_⟩⟩
      obtain ⟨hscalar, -⟩ | ⟨v', raw, off, b, -, href⟩ := hi.owns m
      · cases hv : h (N.own m) with
        | unk raw => exact hno raw hdef.1 ((howns m).trans hv)
        | sec3 => rw [hv] at hscalar; cases hscalar
        | _ =>
          rw [hv] at hdef
          cases hdef.2
      · rw [href] at hdef
        cases hdef.2

/-- The data states of the names and of the variables. -/
def registerStates (N : SsaNames E) : Set Nat :=
  fun x => (∃ k, N.own k = x) ∨ ∃ k, N.var k = some x

/-- The data state that a phi writes. -/
def destState (N : SsaNames E) (n : Nat) : Nat := (N.var n).getD (N.own n)

/-- The result refers to its variable, the others keep their contents. -/
theorem ssaDest_spec (hi : Registers N h) (hx : ssaDest N h n = some h') :
    Registers N h' ∧ target h' (N.own n) = destState N n ∧
      (∀ k, k ≠ n → h' (N.own k) = h (N.own k)) ∧
      ∀ x ∈ registerStates N, x = destState N n ∨ x ≠ N.own n → HasFrom (h' x) (h x) := by
  unfold ssaDest at hx
  split at hx
  · rename_i hvar
    cases hx
    refine ⟨hi, ?_, fun _ _ => rfl, fun x _ _ => .refl _⟩
    unfold destState
    rw [hvar]
    obtain ⟨hscalar, -⟩ | ⟨v, raw, off, b, hvar', -⟩ := hi.owns n
    · exact target_scalar hscalar
    · rw [hvar] at hvar'
      cases hvar'
  · rename_i v hvar
    obtain ⟨h₁, raw, hx₁, href, hi₁, howns, hvars⟩ := write_inv hi hvar
    cases hx₁.symm.trans hx
    have hdest : destState N n = v := by
      unfold destState
      rw [hvar]
      rfl
    rw [hdest]
    refine ⟨hi₁.registers, target_ref href, howns, fun x hreg hother => ?_⟩
    obtain ⟨k, rfl⟩ | ⟨k, hk⟩ := hreg
    · have hk : k ≠ n := by
        rintro rfl
        exact hother.elim (N.own_ne_var k k v hvar) fun hne => hne rfl
      rw [howns k hk]
      exact .refl _
    · exact .of_same (hvars k x hk)

/-- Filling keeps contents. -/
theorem Filled.hasFrom (hs : Filled N h h') {x : Nat} (hreg : x ∈ registerStates N) :
    HasFrom (h' x) (h x) := by
  obtain ⟨k, rfl⟩ | ⟨k, hk⟩ := hreg
  · obtain heq | ⟨hunset, -⟩ := hs.owns k
    · rw [heq]
      exact .refl _
    · exact fun hset => absurd hunset (by simp [hset])
  · exact hs.vars k x hk

theorem target_mem (hi : Registers N h) (k : Nat) :
    target h (N.own k) ∈ registerStates N := by
  obtain ⟨hscalar, -⟩ | ⟨v, raw, off, b, hvar, href⟩ := hi.owns k
  · rw [target_scalar hscalar]
    exact Or.inl ⟨k, rfl⟩
  · rw [target_ref href]
    exact Or.inr ⟨k, hvar⟩

/-- A name does not lead to the state of another one. -/
theorem target_ne_own (hi : Registers N h) {k : Nat} (hk : k ≠ n) :
    N.own k ≠ target h (N.own n) := by
  obtain ⟨hscalar, -⟩ | ⟨v, raw, off, b, hvar, href⟩ := hi.owns n
  · rw [target_scalar hscalar]
    exact fun heq => hk (N.own_inj k n heq)
  · rw [target_ref href]
    exact N.own_ne_var k n v hvar

/-- Looking up and reading the argument `m`, after the result, leaves the other names. -/
theorem reads_owns {h₁ h₂ h₃ : DsHeap} {dsts srcs : List DsvLoc} (hi : Registers N h)
    (hop : ssaOperand N fuel rand' h m = some h₁) (hn : Ready E (h₁ (N.own n)))
    (hread : getDsVal E rand fuel h₁ (dsVal (N.own n)) 0 0 = some (h₂, some dsts))
    (hread' : getDsVal E rand' fuel h₂ (dsVal (N.own m)) 0 0 = some (h₃, some srcs)) :
    (∀ k, k ≠ n → k ≠ m → h₃ (N.own k) = h (N.own k)) ∧
      (m ≠ n → ((h (N.own m)).isUnset = false → h₃ (N.own m) = h (N.own m)) ∧
        ((h (N.own m)).isUnset = true →
          (h₃ (N.own m)).isScalar = true ∧ (h₃ (N.own m)).isUnset = false)) := by
  obtain ⟨hi₁, hs₁, hm⟩ := operand_inv hi hop
  obtain ⟨hother, -⟩ := operand_home hi hop
  obtain ⟨-, hi₂, hs₂, -⟩ := read_inv hi₁ hn hread
  obtain ⟨-, u, hh₂, -⟩ := read_eq hi₁ hn hread
  obtain ⟨-, -, hs₃, hscalar₃, hset₃⟩ := read_inv hi₂ (hs₂.ready hm) hread'
  obtain ⟨-, u', hh₃, -⟩ := read_eq hi₂ (hs₂.ready hm) hread'
  have hfirst : ∀ k, k ≠ n → h₂ (N.own k) = h₁ (N.own k) := fun k hk => by
    rw [hh₂]
    exact Function.update_of_ne (target_ne_own hi₁ hk) ..
  refine ⟨fun k hkn hkm => ?_, fun hmn => ⟨fun hset => ?_, fun hunset => ?_⟩⟩
  · rw [hh₃, Function.update_of_ne (target_ne_own hi₂ hkm), hfirst k hkn, hother k hkm]
  · obtain heq | ⟨hunset, -⟩ := ((hs₁.trans hs₂).trans hs₃).owns m
    · exact heq
    · exact absurd hunset (by simp [hset])
  · obtain heq | ⟨-, hscalar, hset⟩ := ((hs₁.trans hs₂).trans hs₃).owns m
    · -- a name without content is read from its own state, and given one
      obtain ⟨hscalar, -⟩ | ⟨v, raw, off, b, -, href⟩ := hi₂.owns m
      · rw [target_scalar hscalar] at hscalar₃ hset₃
        exact ⟨hscalar₃, hset₃⟩
      · have hsame : (h₂ (N.own m)).isRef = (h (N.own m)).isRef := (hs₁.trans hs₂).isRef m
        rw [href] at hsame
        exact absurd hunset (by simp [isUnset_of_isRef hsame.symm])
    · exact ⟨hscalar, hset⟩

theorem elemBits_takenFrom (h : DsHeap) (hn : N.elemBits (N.own n) = none) :
    N.elemBits (takenFrom N (home N h) n m) = N.elemBits (N.own m) := by
  unfold takenFrom
  split
  · rename_i hmn
    rw [hmn]
    cases hvar : N.var n with
    | none => rfl
    | some v => exact (N.elem_var n v hvar).trans hn.symm
  · exact elemBits_home h m

/-- What the argument is read as. -/
theorem reads_from {h₀ h₁ h₃ : DsHeap} (hi₀ : Registers N h₀)
    (hdest : ∀ x ∈ registerStates N, x = destState N n ∨ x ≠ N.own n → HasFrom (h₀ x) (h x))
    (htarget : target h₀ (N.own n) = destState N n) (hi : Registers N h)
    (howns : ∀ k, k ≠ n → h₀ (N.own k) = h (N.own k))
    (hop : ssaOperand N fuel rand' h₀ m = some h₁) (hs₁ : Filled N h₀ h₁) (hs₃ : Filled N h₁ h₃) :
    HasFrom (h₃ (target h₃ (N.own m))) (h (takenFrom N (home N h) n m)) := by
  have hs := hs₁.trans hs₃
  have hmem := target_mem hi₀ m
  rw [takenFrom]
  split
  · rename_i hmn
    subst hmn
    rw [hs.target (hi₀.owns m), htarget]
    rw [htarget] at hmem
    exact (hs.hasFrom hmem).trans (hdest _ hmem (Or.inl rfl))
  · rename_i hmn
    obtain ⟨-, ⟨-, hno⟩ | ⟨hunset, hscalar, hset, v, hvar, hdef, hfrom⟩⟩ := operand_home hi₀ hop
    · have hno' : ¬ (N.defaultDef m = true ∧ (h (N.own m)).isUnset = true) := by
        rw [← howns m hmn]
        exact hno
      have hhome : home N h m = target h₀ (N.own m) :=
        (home_eq_target hi hno').trans (target_congr (howns m hmn)).symm
      rw [hs.target (hi₀.owns m), hhome]
      refine (hs.hasFrom hmem).trans (hdest _ hmem (Or.inr fun heq => ?_))
      exact target_ne_own hi₀ (fun h => hmn h.symm) heq.symm
    · rw [howns m hmn] at hunset
      have heq : h₃ (N.own m) = h₁ (N.own m) := by
        obtain heq | ⟨hunset₁, -⟩ := hs₃.owns m
        · exact heq
        · exact absurd hunset₁ (by simp [hset])
      rw [target_scalar (by rw [heq]; exact hscalar), heq, home_default hvar hdef hunset]
      exact hfrom.trans (hdest v (Or.inr ⟨m, hvar⟩) (Or.inr (N.own_ne_var n m v hvar).symm))

/-- The value that is written goes to the state of the result, too. -/
theorem phiBack_eq {s : DataStateVal} (hs : s.isScalar = true)
    (hx : ssaBack N (some dsvCopyDataForce) (Function.update h (destState N n) s) n
      (dsVal (destState N n)) = some h') :
    h' = Function.update (Function.update h (destState N n) s) (N.own n) s := by
  unfold ssaBack at hx
  split at hx
  · rename_i v copy hvar hcopy
    cases hcopy
    have hdest : destState N n = v := by
      unfold destState
      rw [hvar]
      rfl
    rw [hdest] at hx ⊢
    have hne : N.own n ≠ v := N.own_ne_var n n v hvar
    have hat : Function.update h v s v = s := Function.update_self ..
    have hrun : dsvCopyDataForce (Function.update h v s) (dsVal (N.own n)) (dsVal v) =
        some (Function.update (Function.update h v s) (N.own n) s, false) := by
      rw [copyForce_scalar hne (by rw [hat]; exact hs), hat]
    unfold copyBack at hx
    rw [if_neg fun heq => hne (congrArg DsvLoc.ds heq).symm, hrun] at hx
    exact (Option.some.inj hx).symm
  · rename_i hnone
    have hdest : destState N n = N.own n := by
      unfold destState
      cases hvar : N.var n with
      | none => rfl
      | some v => exact absurd rfl (hnone v _ hvar)
    rw [hdest] at hx ⊢
    rw [Function.update_idem]
    exact (Option.some.inj hx).symm

/-- **What one phi does.** -/
structure PhiDone (N : SsaNames E) (h h' : DsHeap) (n m : Nat) : Prop where
  registers : Registers N h'
  result : (h' (N.own n)).isScalar = true ∧ (h' (N.own n)).isUnset = false
  others : ∀ k, k ≠ n → k ≠ m → h' (N.own k) = h (N.own k)
  argKept : m ≠ n → (h (N.own m)).isUnset = false → h' (N.own m) = N.taken (N.own m) (h (N.own m))
  argFilled : m ≠ n → (h (N.own m)).isUnset = true →
    (h' (N.own m)).isScalar = true ∧ (h' (N.own m)).isUnset = false
  moved : Carries HasFrom (registerStates N) [phiMove N h (home N h) n m] (takenHeap N h)
    (takenHeap N h')

theorem phiMove_dsts {x : Nat} {view : Nat → Nat} :
    x ∈ (phiMove N h view n m).dsts ↔
      x = N.own n ∨ N.var n = some x ∨ (h (N.own m)).isUnset = true ∧ x = N.own m := by
  unfold phiMove
  cases N.var n with
  | none => by_cases hunset : (h (N.own m)).isUnset = true <;> simp [hunset]
  | some v =>
    by_cases hunset : (h (N.own m)).isUnset = true <;>
      simp only [hunset, List.cons_append, List.mem_cons, Option.toList_some, Option.some.injEq,
        List.nil_append, List.mem_nil_iff, or_false, eq_comm, if_true, if_false,
        Bool.false_eq_true, true_and, false_and]

theorem registers_update (hi : Registers N h) {x : Nat} {u : DataStateVal}
    (hscalar : u.isScalar = true) (hset : u.isUnset = false) :
    Registers N (Function.update h x u) := by
  refine ⟨regState_update hi (regState_set hscalar hset), fun k => ?_, fun _ _ hw => by cases hw⟩
  unfold OwnState
  by_cases hk : N.own k = x
  · rw [hk, Function.update_self]
    exact Or.inl ⟨hscalar, fun hunset => absurd hunset (by simp [hset])⟩
  · rw [Function.update_of_ne hk]
    exact hi.owns k

theorem elemBits_destState (hn : N.elemBits (N.own n) = none) :
    N.elemBits (destState N n) = none := by
  unfold destState
  cases hvar : N.var n with
  | none => exact hn
  | some v => exact N.elem_var n v hvar

/-- The value that the argument was given is what a phi takes from it. -/
theorem taken_arrayToPointer {h₃ h₃' : DsHeap} (hi : Registers N h₃)
    (hx : decGassignArrayToPointer N h₃ m (dsVal (target h₃ (N.own m))) = some h₃') (x : Nat) :
    takenHeap N h₃' x = takenHeap N h₃ x := by
  unfold takenHeap
  by_cases hxm : N.elemBits x = none
  · rw [arrayToPointer_other hi hx hxm]
  · obtain rfl := arrayToPointer_eq hx
    by_cases hm : (N.elemBits (N.own m)).isSome
    · rw [target_elem hi hm]
      by_cases heq : x = N.own m
      · rw [heq, Function.update_self, taken_taken]
      · rw [Function.update_of_ne heq]
    · rw [taken_none (Option.not_isSome_iff_eq_none.mp hm), Function.update_eq_self]

/-- The argument after its value was changed: its own state, and those of the other names. -/
theorem arrayToPointer_owns {h₃ h₃' : DsHeap} (hi : Registers N h₃)
    (hx : decGassignArrayToPointer N h₃ m (dsVal (target h₃ (N.own m))) = some h₃') :
    h₃' (N.own m) = N.taken (N.own m) (h₃ (N.own m)) ∧
      ∀ k, k ≠ m → h₃' (N.own k) = h₃ (N.own k) := by
  by_cases helem : (N.elemBits (N.own m)).isSome
  · rw [arrayToPointer_eq hx, target_elem hi helem, Function.update_self]
    exact ⟨rfl, fun k hk => Function.update_of_ne (fun heq => hk (N.own_inj k m heq)) ..⟩
  · have hnone := Option.not_isSome_iff_eq_none.mp helem
    rw [arrayToPointer_eq hx, taken_none hnone, taken_none hnone, Function.update_eq_self]
    exact ⟨rfl, fun _ _ => rfl⟩

/-- **What one phi writes**: `read` goes to the result and its variable, over the heap `h₃` in which
    both sides have been read. -/
structure PhiWrites (N : SsaNames E) (h h₃ h' : DsHeap) (n m : Nat) (read : DataStateVal) :
    Prop where
  written : h' = Function.update (Function.update h₃ (destState N n) read) (N.own n) read
  registers : Registers N h₃
  scalar : read.isScalar = true
  set : read.isUnset = false
  comes : HasFrom read (takenHeap N h (takenFrom N (home N h) n m))
  others : ∀ k, k ≠ n → k ≠ m → h₃ (N.own k) = h (N.own k)
  argKept : m ≠ n → (h (N.own m)).isUnset = false → h₃ (N.own m) = N.taken (N.own m) (h (N.own m))
  argFilled : m ≠ n → (h (N.own m)).isUnset = true →
    (h₃ (N.own m)).isScalar = true ∧ (h₃ (N.own m)).isUnset = false ∧
      takenHeap N h₃ (N.own m) = read
  kept : ∀ x ∈ registerStates N, x = destState N n ∨ x ≠ N.own n →
    HasFrom (takenHeap N h₃ x) (takenHeap N h x)

theorem ssaPhi_writes (hi : Registers N h) (hdef : N.defaultDef n = false)
    (hn : N.elemBits (N.own n) = none) {i j : Nat} {read : DataStateVal}
    (hx : ssaPhi N fuel rand rand' h n m i j = some (h', read)) :
    ∃ h₃, PhiWrites N h h₃ h' n m read := by
  obtain ⟨h₀, h₁, h₂, h₃, h₃', h₄, dsts, srcs, dst, src, hx₀, hop, hread, hread', hdst, hsrc,
    harray, hs, hcopy, hback⟩ := ssaPhi_cases hx
  obtain ⟨hi₀, htarget, howns, hdest⟩ := ssaDest_spec hi hx₀
  obtain ⟨hi₁, hs₁, hm⟩ := operand_inv hi₀ hop
  have hready : Ready E (h₁ (N.own n)) := ready_of_owns hi₁ hdef
  obtain ⟨-, hi₂, hs₂, -⟩ := read_inv hi₁ hready hread
  obtain ⟨-, -, hs₃, -⟩ := read_inv hi₂ (hs₂.ready hm) hread'
  have htarget₁ : target h₁ (N.own n) = destState N n := (hs₁.target (hi₀.owns n)).trans htarget
  obtain ⟨rfl, heq, rfl, hscalar, hset, hi₃, hs₀, harray', hsame, hi₃'⟩ := phi_reads hi₀ hop hready
    htarget₁ (elemBits_destState hn) hread hread' hdst hsrc harray hs hcopy
  obtain ⟨harg, hkept⟩ := arrayToPointer_owns hi₃ harray'
  obtain ⟨hothers, hargs⟩ := reads_owns hi₀ hop hready hread hread'
  -- the value that is written is what a phi takes
  have hval : read = N.taken (N.own m) (h₃ (target h₃ (N.own m))) := by
    rw [heq, hsame, arrayToPointer_eq harray', Function.update_self]
  refine ⟨h₃', phiBack_eq hscalar hback, hi₃'.registers, hscalar, hset, ?_, fun k hkn hkm => ?_,
    fun hmn hset => ?_, fun hmn hunset => ?_, fun x hreg hx => ?_⟩
  · rw [hval, takenHeap, taken_congr (elemBits_takenFrom h hn)]
    exact (reads_from hi₀ hdest htarget hi howns hop hs₁ (hs₂.trans hs₃)).taken _
  · rw [hkept k hkm, hothers k hkn hkm, howns k hkn]
  · rw [harg, (hargs hmn).1 (by rw [howns m hmn]; exact hset), howns m hmn]
  · rw [← howns m hmn] at hunset
    obtain ⟨hscalar₃, hset₃⟩ := (hargs hmn).2 hunset
    rw [harg, isScalar_taken, isUnset_taken]
    refine ⟨hscalar₃, hset₃, ?_⟩
    rw [takenHeap, harg, taken_taken, hval, target_scalar hscalar₃]
  · rw [taken_arrayToPointer hi₃ harray' x]
    exact ((hs₀.hasFrom hreg).trans (hdest x hreg hx)).taken x

namespace PhiWrites

variable {h₃ : DsHeap} {read : DataStateVal}

theorem result (hw : PhiWrites N h h₃ h' n m read) : h' (N.own n) = read := by
  rw [hw.written]
  exact Function.update_self ..

/-- The other names keep the states in which both sides were read. -/
theorem own (hw : PhiWrites N h h₃ h' n m read) {k : Nat} (hk : k ≠ n) :
    h' (N.own k) = h₃ (N.own k) := by
  have hne : N.own k ≠ destState N n := by
    unfold destState
    cases hvar : N.var n with
    | none => exact fun heq => hk (N.own_inj k n heq)
    | some v => exact N.own_ne_var k n v hvar
  rw [hw.written, Function.update_of_ne fun heq => hk (N.own_inj k n heq),
    Function.update_of_ne hne]

theorem moved (hw : PhiWrites N h h₃ h' n m read) (hn : N.elemBits (N.own n) = none) :
    Carries HasFrom (registerStates N) [phiMove N h (home N h) n m] (takenHeap N h)
      (takenHeap N h') := by
  intro x hreg
  rw [origin_cons, show origin [] x = x from rfl]
  by_cases hx : x ∈ (phiMove N h (home N h) n m).dsts
  · rw [Move.from_of_mem hx]
    have hat : takenHeap N h' x = read := by
      obtain rfl | hvar | ⟨hunset, rfl⟩ := phiMove_dsts.mp hx
      · rw [takenHeap, taken_none hn, hw.result]
      · have hxd : destState N n = x := by
          unfold destState
          rw [hvar]
          rfl
        rw [takenHeap, taken_none (N.elem_var n x hvar), hw.written,
          Function.update_of_ne (N.own_ne_var n n x hvar).symm, hxd, Function.update_self]
      · by_cases hmn : m = n
        · rw [hmn, takenHeap, taken_none hn, hw.result]
        · rw [takenHeap, hw.own hmn]
          exact (hw.argFilled hmn hunset).2.2
    rw [hat]
    exact hw.comes
  · rw [Move.from_of_notMem hx]
    obtain ⟨hxn, hrest⟩ := not_or.mp fun h => hx (phiMove_dsts.mpr h)
    have hxd : x ≠ destState N n := by
      rintro rfl
      unfold destState at hxn hrest
      cases hvar : N.var n with
      | none =>
        rw [hvar] at hxn
        exact hxn rfl
      | some v => exact hrest (Or.inl (by rw [hvar]; rfl))
    have hat : takenHeap N h' x = takenHeap N h₃ x := by
      rw [takenHeap, takenHeap, hw.written, Function.update_of_ne hxn, Function.update_of_ne hxd]
    rw [hat]
    exact hw.kept x hreg (Or.inr hxn)

theorem done (hw : PhiWrites N h h₃ h' n m read) (hn : N.elemBits (N.own n) = none) :
    PhiDone N h h' n m where
  registers := by
    rw [hw.written]
    exact registers_update (registers_update hw.registers hw.scalar hw.set) hw.scalar hw.set
  result := by
    rw [hw.result]
    exact ⟨hw.scalar, hw.set⟩
  others k hkn hkm := (hw.own hkn).trans (hw.others k hkn hkm)
  argKept hmn hset := (hw.own hmn).trans (hw.argKept hmn hset)
  argFilled hmn hunset := by
    obtain ⟨hscalar, hset, -⟩ := hw.argFilled hmn hunset
    rw [hw.own hmn]
    exact ⟨hscalar, hset⟩
  moved := hw.moved hn

end PhiWrites

theorem ssaPhi_done (hi : Registers N h) (hdef : N.defaultDef n = false)
    (hn : N.elemBits (N.own n) = none) {i j : Nat} {read : DataStateVal}
    (hx : ssaPhi N fuel rand rand' h n m i j = some (h', read)) : PhiDone N h h' n m := by
  obtain ⟨h₃, hw⟩ := ssaPhi_writes hi hdef hn hx
  exact hw.done hn

/-! ## All phis of the block -/

/-- A name of which the own state is left alone, or has got a scalar. -/
def OwnKept (N : SsaNames E) (h h' : DsHeap) : Prop :=
  ∀ k, h' (N.own k) = h (N.own k) ∨
    (h' (N.own k)).isScalar = true ∧ (h' (N.own k)).isUnset = false

variable {h₀ : DsHeap} {x : Nat}

theorem OwnKept.trans (hk : OwnKept N h₀ h) (hk' : OwnKept N h h') : OwnKept N h₀ h' := by
  intro k
  obtain heq' | hset := hk' k
  · rw [heq']
    exact hk k
  · exact Or.inr hset

theorem PhiDone.ownKept (hi : Registers N h) (hd : PhiDone N h h' n m) : OwnKept N h h' := by
  intro k
  by_cases hkn : k = n
  · exact hkn ▸ Or.inr hd.result
  · by_cases hkm : k = m
    · subst hkm
      by_cases hunset : (h (N.own k)).isUnset = true
      · exact Or.inr (hd.argFilled hkn hunset)
      · have hset : (h (N.own k)).isUnset = false := by simpa using hunset
        have hkept := hd.argKept hkn hset
        by_cases helem : (N.elemBits (N.own k)).isSome
        · have hscalar : (h (N.own k)).isScalar = true := by
            obtain ⟨hscalar, -⟩ | ⟨v, raw, off, b, hvar, -⟩ := hi.owns k
            · exact hscalar
            · rw [N.elem_own k helem] at hvar
              cases hvar
          rw [hkept, isScalar_taken, isUnset_taken]
          exact Or.inr ⟨hscalar, hset⟩
        · rw [hkept, taken_none (Option.not_isSome_iff_eq_none.mp helem)]
          exact Or.inl rfl
    · exact Or.inl (hd.others k hkn hkm)

/-- An own state that had no content when the block was entered, and has one now. -/
theorem OwnKept.filled (hk : OwnKept N h₀ h) {k : Nat}
    (hne : (h₀ (N.own k)).isUnset ≠ (h (N.own k)).isUnset) :
    (h (N.own k)).isUnset = false ∧ home N h k = N.own k := by
  obtain heq | ⟨hscalar, hset⟩ := hk k
  · exact absurd (by rw [heq]) hne
  · exact ⟨hset, home_own hscalar hset⟩

/-- What a phi moves can be told from the contents when the block was entered. -/
theorem phiMove_from (hk : OwnKept N h₀ h) (x : Nat) :
    (phiMove N h₀ (home N h) n m).from x = (phiMove N h (home N h) n m).from x := by
  by_cases hne : (h₀ (N.own m)).isUnset = (h (N.own m)).isUnset
  · unfold phiMove
    rw [hne]
  · obtain ⟨hset, hhome⟩ := hk.filled hne
    by_cases hwritten : x = N.own n ∨ N.var n = some x
    · rw [Move.from_of_mem (phiMove_dsts.mpr (by tauto)),
        Move.from_of_mem (phiMove_dsts.mpr (by tauto))]
      rfl
    · have hnot : x ∉ (phiMove N h (home N h) n m).dsts := fun hx => by
        rw [phiMove_dsts, hset] at hx
        simp only [Bool.false_eq_true, false_and, or_false] at hx
        exact hwritten hx
      rw [Move.from_of_notMem hnot]
      by_cases hx : x ∈ (phiMove N h₀ (home N h) n m).dsts
      · rw [Move.from_of_mem hx]
        obtain hxn | hvar | ⟨-, rfl⟩ := phiMove_dsts.mp hx
        · exact absurd (Or.inl hxn) hwritten
        · exact absurd (Or.inr hvar) hwritten
        · have hmn : m ≠ n := fun heq => hwritten (Or.inl (congrArg N.own heq))
          exact (if_neg hmn).trans hhome
      · exact Move.from_of_notMem hx

theorem viewAfter_eq (hk : OwnKept N h₀ h) (hd : PhiDone N h h' n m) :
    viewAfter N h₀ (home N h) n m = home N h' := by
  funext k
  unfold viewAfter
  by_cases hkn : k = n
  · rw [hkn, Function.update_self, home_own hd.result.1 hd.result.2]
  · rw [Function.update_of_ne hkn]
    by_cases hkm : k = m
    · subst hkm
      rw [Function.update_self]
      by_cases hunset : (h (N.own k)).isUnset = true
      · obtain ⟨hscalar, hset⟩ := hd.argFilled hkn hunset
        rw [home_own hscalar hset]
        obtain heq | ⟨-, hno⟩ := hk k
        · rw [← heq, if_pos hunset]
        · exact absurd hunset (by simp [hno])
      · have hhome : home N h' k = home N h k := by
          by_cases helem : (N.elemBits (N.own k)).isSome
          · rw [home_elem h' helem, home_elem h helem]
          · refine home_congr ((hd.argKept hkn (by simpa using hunset)).trans ?_)
            exact taken_none (Option.not_isSome_iff_eq_none.mp helem) _
        rw [hhome]
        split
        · rename_i hunset₀
          exact ((hk.filled (by rw [hunset₀]; exact fun h => hunset h.symm)).2).symm
        · rfl
    · rw [Function.update_of_ne hkm, home_congr (hd.others k hkn hkm)]

variable {g : Cfg} {gfuel : Nat} {c : CpState} {B : BlockSeq}

/-- What a step of the block went through. -/
theorem phiStep_cases {s t : PhiState} {d : PhiDraw}
    (hx : phiStep N fuel g gfuel c B s d = some t) :
    ∃ gs next k, s.curpos = .phi gs next ∧ decGimplePhi g gfuel c = some (some k) ∧
      N.defaultDef gs.result = false ∧ N.elemBits (N.own gs.result) = none ∧
      t.curpos = bbNextGimple B (.phi gs next) ∧
      ∃ read, ssaPhi N fuel d.rand d.rand' s.frame.heap gs.result (gs.args k) d.i d.j =
        some (t.frame.heap, read) := by
  unfold phiStep at hx
  split at hx
  · rename_i gs next hpos
    split at hx
    · rename_i k hk
      obtain ⟨frame, hstep, rfl⟩ := Option.map_eq_some_iff.mp hx
      rw [ssaStep] at hstep
      split at hstep
      · cases hstep
      · rename_i hdef
        obtain ⟨⟨h', read⟩, hr, rfl⟩ := Option.map_eq_some_iff.mp hstep
        obtain ⟨hdef, helem⟩ := not_or.mp hdef
        exact ⟨gs, next, k, hpos, hk, by simpa using hdef, Option.not_isSome_iff_eq_none.mp helem,
          congrArg (bbNextGimple B) hpos, read, hr⟩
    · cases hx
  · cases hx

/-- **What all phis from a statement on do.** -/
structure PhisDone (N : SsaNames E) (h₀ h h' : DsHeap) (phis : List Phi) (k : Nat) : Prop where
  registers : Registers N h'
  kept : OwnKept N h h'
  results : ∀ p ∈ phis, N.elemBits (N.own p.result) = none ∧
    (h' (N.own p.result)).isScalar = true ∧ (h' (N.own p.result)).isUnset = false
  moved : Carries HasFrom (registerStates N)
    (phiMoves N h₀ (home N h) (phis.map fun q => (q.result, q.args k))) (takenHeap N h)
    (takenHeap N h')

theorem phiMoves_src {view : Nat → Nat}
    (hview : ∀ k, view k ∈ registerStates N) (ps : List (Nat × Nat)) :
    ∀ mv ∈ phiMoves N h₀ view ps, mv.src ∈ registerStates N := by
  induction ps generalizing view with
  | nil => exact fun mv hmv => by cases hmv
  | cons p ps ih =>
    intro mv hmv
    obtain rfl | hmv := List.mem_cons.mp hmv
    · unfold phiMove takenFrom
      dsimp only
      split
      · cases hvar : N.var p.1 with
        | none => exact Or.inl ⟨p.1, rfl⟩
        | some v => exact Or.inr ⟨p.1, hvar⟩
      · exact hview p.2
    · refine ih (fun k => ?_) mv hmv
      unfold viewAfter
      by_cases hkn : k = p.1
      · rw [hkn, Function.update_self]
        exact Or.inl ⟨p.1, rfl⟩
      · rw [Function.update_of_ne hkn]
        by_cases hkm : k = p.2
        · rw [hkm, Function.update_self]
          split
          · exact Or.inl ⟨p.2, rfl⟩
          · exact hview p.2
        · rw [Function.update_of_ne hkm]
          exact hview k

theorem home_mem (N : SsaNames E) (h : DsHeap) (k : Nat) : home N h k ∈ registerStates N := by
  unfold home
  cases hvar : N.var k with
  | none => exact Or.inl ⟨k, rfl⟩
  | some v =>
    dsimp only
    split
    · exact Or.inr ⟨k, hvar⟩
    · exact Or.inl ⟨k, rfl⟩

/-- One phi, and then the rest. -/
theorem PhiDone.cons {h₁ : DsHeap} {p : Phi} {phis : List Phi} {k : Nat} (hk : OwnKept N h₀ h)
    (hi : Registers N h) (helem : N.elemBits (N.own p.result) = none)
    (hd : PhiDone N h h₁ p.result (p.args k)) (hrest : PhisDone N h₀ h₁ h' phis k) :
    PhisDone N h₀ h h' (p :: phis) k := by
  have hfirst : Carries HasFrom (registerStates N)
      [phiMove N h₀ (home N h) p.result (p.args k)] (takenHeap N h) (takenHeap N h₁) := by
    intro x hx
    have hmoved := hd.moved x hx
    rw [origin_cons, show origin [] x = x from rfl] at hmoved ⊢
    rw [phiMove_from hk]
    exact hmoved
  refine ⟨hrest.registers, (hd.ownKept hi).trans hrest.kept, fun q hq => ?_, ?_⟩
  · obtain rfl | hq := List.mem_cons.mp hq
    · obtain heq | hset := hrest.kept q.result
      · rw [heq]
        exact ⟨helem, hd.result⟩
      · exact ⟨helem, hset⟩
    · exact hrest.results q hq
  · rw [List.map_cons, phiMoves, viewAfter_eq hk hd]
    exact hfirst.append (fun _ _ _ => .trans) (phiMoves_src (home_mem N h₁) _) hrest.moved

/-- **The phis of a block, one after the other.** -/
theorem phis_done {draws : List PhiDraw} {s t : PhiState} {k : Nat}
    (hx : exec (phiStep N fuel g gfuel c B) s draws = some t)
    (hend : ∀ gs next, t.curpos ≠ .phi gs next) (hi : Registers N s.frame.heap)
    (hk : OwnKept N h₀ s.frame.heap) (htakes : decGimplePhi g gfuel c = some (some k)) :
    PhisDone N h₀ s.frame.heap t.frame.heap s.curpos.phis k := by
  induction draws generalizing s with
  | nil =>
    cases hx
    have hnone : t.curpos.phis = [] := by
      cases hpos : t.curpos with
      | phi gs next => exact absurd hpos (hend gs next)
      | _ => rfl
    rw [hnone]
    exact ⟨hi, fun _ => Or.inl rfl, fun p hp => (by cases hp), .nil .refl _⟩
  | cons d draws ih =>
    cases hstep : phiStep N fuel g gfuel c B s d with
    | none =>
      unfold exec at hx
      rw [hstep] at hx
      cases hx
    | some s₁ =>
      rw [exec_cons_of_step hstep] at hx
      obtain ⟨gs, next, k', hpos, hk', hdef, helem, hnext, read, hr⟩ := phiStep_cases hstep
      cases htakes.symm.trans hk'
      have hd := ssaPhi_done hi hdef helem hr
      have hrest := ih hx hd.registers (hk.trans (hd.ownKept hi))
      rw [hnext, phis_bbNextGimple] at hrest
      rw [hpos]
      exact hd.cons hk hi helem hrest

/-- A block with phis takes the argument that the loop over the arguments finds. -/
theorem takes_of_exec {draws : List PhiDraw} {s t : PhiState}
    (hx : exec (phiStep N fuel g gfuel c B) s draws = some t)
    (hend : ∀ gs next, t.curpos ≠ .phi gs next) (hphis : s.curpos.phis ≠ []) :
    ∃ k, decGimplePhi g gfuel c = some (some k) := by
  cases draws with
  | nil =>
    cases hx
    cases hpos : s.curpos with
    | phi gs next => exact absurd hpos (hend gs next)
    | _ =>
      rw [hpos] at hphis
      exact absurd rfl hphis
  | cons d draws =>
    cases hstep : phiStep N fuel g gfuel c B s d with
    | none =>
      unfold exec at hx
      rw [hstep] at hx
      cases hx
    | some s₁ =>
      obtain ⟨-, -, k, -, hk, -⟩ := phiStep_cases hstep
      exact ⟨k, hk⟩

theorem takesArg_iff {k : Nat} :
    TakesArg g c k ↔ ∃ gfuel, decGimplePhi g gfuel c = some (some k) := by
  unfold TakesArg decGimplePhi
  cases c.cps with
  | nil => simp
  | cons b rest =>
    cases rest with
    | nil => simp
    | cons prev rest =>
      simp only [List.tail_cons, List.head?_cons, Option.some.injEq, exists_eq_left']
      exact phiArg_iff.symm

theorem takesArg_unique {k k' : Nat} (hk : TakesArg g c k) (hk' : TakesArg g c k') : k = k' := by
  obtain ⟨prev, hprev, ⟨e, he, hchain⟩, hbefore⟩ := hk
  obtain ⟨prev', hprev', ⟨e', he', hchain'⟩, hbefore'⟩ := hk'
  cases hprev.symm.trans hprev'
  obtain hlt | heq | hlt := Nat.lt_trichotomy k k'
  · exact absurd hchain (hbefore' k hlt e he).1
  · exact heq
  · exact absurd hchain' (hbefore k' hlt e' he').1

/-! ## Registers -/

/-- The statement gives no reference as a value. -/
def GivesRegister : SsaEvent E → Prop
  | .assign _ _ w _ _ => w.isRef = false
  | .callRet _ w _ _ => w.1.isRef = false
  | _ => True

theorem registers_step {s s' : SsaState} {e : SsaEvent E} (hi : Registers N s.heap)
    (hg : GivesRegister e) (hx : ssaStep N fuel s e = some s') : Registers N s'.heap := by
  have hnone : ∀ k, NoneGivenRefers N s.heap (fun _ => none) k :=
    fun _ _ _ _ _ _ _ hw => by cases hw
  cases e with
  | assign k code w i rand =>
    rw [ssaStep] at hx
    split at hx
    · cases hx
    · rename_i hno
      obtain ⟨hdef, hset⟩ := not_or.mp hno
      obtain ⟨h', hr, rfl⟩ := Option.map_eq_some_iff.mp hx
      refine (ssaAssign_inv hi (by simpa using hdef) (hnone k) hg (fun hu => absurd hu hset) ?_
        hr).registers
      intro copy hcopy
      split at hcopy
      · cases hcopy
        exact Or.inr rfl
      · cases hcopy
  | callRet k w i rand =>
    rw [ssaStep] at hx
    split at hx
    · cases hx
    · rename_i hdef
      obtain ⟨h', hr, rfl⟩ := Option.map_eq_some_iff.mp hx
      refine (ssaAssign_inv hi (by simpa using hdef) (hnone k) hg w.2 (fun copy hcopy => ?_)
        hr).registers
      cases hcopy
      exact Or.inl rfl
  | phi k m i j rand rand' =>
    rw [ssaStep] at hx
    split at hx
    · cases hx
    · rename_i hdef
      obtain ⟨⟨h', read⟩, hr, rfl⟩ := Option.map_eq_some_iff.mp hx
      obtain ⟨hdef, helem⟩ := not_or.mp hdef
      have hnone := Option.not_isSome_iff_eq_none.mp helem
      exact (ssaPhi_done hi (by simpa using hdef) hnone hr).registers
  | operand k rand =>
    obtain ⟨h₁, hop, hx⟩ := Option.bind_eq_some_iff.mp hx
    obtain ⟨hi₁, -, hready⟩ := operand_inv hi hop
    split at hx
    · rename_i h₂ locs hread
      cases hx
      exact (read_inv hi₁ hready hread).2.1
    · cases hx
  | store t w =>
    rw [ssaStep] at hx
    split at hx
    · rename_i ht
      cases hx
      exact store_inv hi ht w
    · cases hx

/-- Names and variables stay registers. -/
theorem registers_exec {s s' : SsaState} {es : List (SsaEvent E)} (hi : Registers N s.heap)
    (hes : ∀ e ∈ es, GivesRegister e) (hx : exec (ssaStep N fuel) s es = some s') :
    Registers N s'.heap := by
  induction es generalizing s with
  | nil =>
    cases hx
    exact hi
  | cons e es ih =>
    cases hstep : ssaStep N fuel s e with
    | none =>
      unfold exec at hx
      rw [hstep] at hx
      cases hx
    | some s₁ =>
      rw [exec_cons_of_step hstep] at hx
      exact ih (registers_step hi (hes e List.mem_cons_self) hstep)
        (fun e' he' => hes e' (List.mem_cons_of_mem e he')) hx

/-! ## What the results have -/

/-- **The values of the edge's arguments.**  Whenever the phis of a block are decoded, each result
    gets the value that its argument for the edge had when the block was entered if what is moved
    comes from data states with these values; and only then, where what is moved was there when the
    block was entered. -/
theorem phiBlock_exact {start : SsaStart N} {es : List (SsaEvent E)} {s : SsaState}
    (hes : ∀ e ∈ es, GivesRegister e) (hreach : exec (ssaStep N fuel) start.state es = some s)
    {draws : List PhiDraw} {t : PhiState}
    (hx : exec (phiStep N fuel g gfuel c B) ⟨s, bbFirstGimple B⟩ draws = some t)
    (hend : ∀ gs next, t.curpos ≠ .phi gs next) :
    (PhisMet N g c s.heap B.phiNodes → PhisRight N g c s.heap B.phiNodes t.frame.heap) ∧
      (PhisThere N g c s.heap B.phiNodes →
        PhisRight N g c s.heap B.phiNodes t.frame.heap → PhisMet N g c s.heap B.phiNodes) := by
  have hi : Registers N s.heap := registers_exec (ssaInv_start start) hes hreach
  have hread : ∀ p ∈ B.phiNodes, ∃ k, TakesArg g c k ∧ Registers N t.frame.heap ∧
      ((t.frame.heap (N.own p.result)).isScalar = true ∧
        (t.frame.heap (N.own p.result)).isUnset = false) ∧
      HasFrom (t.frame.heap (N.own p.result))
        (takenHeap N s.heap (phiOrigin N s.heap B.phiNodes k p)) := by
    intro p hp
    have hphis : (bbFirstGimple B).phis ≠ [] := by
      rw [phis_bbFirstGimple]
      exact List.ne_nil_of_mem hp
    obtain ⟨k, hk⟩ := takes_of_exec hx hend hphis
    have hd := phis_done hx hend hi (fun _ => Or.inl rfl) hk
    rw [phis_bbFirstGimple] at hd
    obtain ⟨helem, hresult⟩ := hd.results p hp
    have hmoved := hd.moved _ (Or.inl ⟨p.result, rfl⟩)
    rw [takenHeap, taken_none helem] at hmoved
    exact ⟨k, takesArg_iff.mpr ⟨gfuel, hk⟩, hd.registers, hresult, hmoved⟩
  -- what a phi takes from an argument
  have harg : ∀ m, takenHeap N s.heap (home N s.heap m) =
      N.taken (N.own m) (s.heap (home N s.heap m)) := fun m =>
    taken_congr (elemBits_home s.heap m) _
  constructor
  · intro hmet e k hentered hedge p hp w hw
    obtain ⟨k', hk', hit, ⟨hscalar, hset⟩, hfrom⟩ := hread p hp
    have hall := hfrom.trans (hmet e k k' hentered hedge hk' p hp)
    rw [harg] at hall
    refine (readsAs_own hit hscalar hset).mpr ((hall ?_).trans (hw.2.taken _))
    rw [isUnset_taken]
    exact hw.1
  · intro hthere hright e k k' hentered hedge hk' p hp hset'
    obtain ⟨k₁, hk₁, hit, ⟨hscalar, hset⟩, hfrom⟩ := hread p hp
    obtain rfl := takesArg_unique hk' hk₁
    rw [harg] at hset' ⊢
    rw [isUnset_taken] at hset'
    have hreads := hright e k hentered hedge p hp _ ⟨hset', .refl _⟩
    have hsame := (readsAs_own hit hscalar hset).mp hreads
    refine (hfrom ?_).symm.trans hsame
    rw [takenHeap, isUnset_taken]
    exact hthere k' hk' p hp

/-! ## A loop that exchanges two values -/

theorem no_var_ne (_ v : Nat) (h : (none : Option Nat) = some v) : v ≠ 0 := by cases h

theorem no_init_register (_ raw : Nat) (h : (none : Option Nat) = some raw) :
    pointerEnv.Register raw := by cases h

/-- Names without a variable. -/
def plainNames : SsaNames pointerEnv where
  own n := n + 1
  var _ := none
  tmp := 0
  node _ := 0
  initNode _ := none
  bits _ := 64
  defaultDef _ := false
  memory _ := false
  elemBits _ := none
  own_inj _ _ h := Nat.add_right_cancel h
  own_ne_var _ _ _ h := by cases h
  own_ne_tmp n h := Nat.succ_ne_zero n h
  var_ne_tmp := no_var_ne
  init_register := no_init_register
  default_var _ _ := rfl
  memory_apart _ h := by cases h
  elem_own _ h := by cases h
  elem_var _ _ _ := rfl

def plainStart : SsaStart plainNames where
  heap _ := .unk 0
  vars _ _ h := by cases h
  owns _ := ⟨0, rfl, fun _ => register_pointer 0⟩

/-- Block 2, with two phis, is the head of a loop with block 3. -/
def swapCfg : Cfg :=
  .ofEdges [⟨0, 1, true⟩, ⟨1, 2, true⟩, ⟨3, 2, false⟩, ⟨2, 3, true⟩, ⟨3, 4, false⟩] 0 1 (· = 2)
    (· ≠ 0) (by decide) (by decide) (by decide)

/-- `a_0 = PHI <x_2, b_1>; b_1 = PHI <y_3, a_0>`. -/
def swapBlock : BlockSeq where
  phiNodes := [⟨0, fun k => if k = 0 then 2 else 1⟩, ⟨1, fun k => if k = 0 then 3 else 0⟩]
  seq := [0]

/-- Nothing is drawn, the first places are taken. -/
def firstDraw : PhiDraw := ⟨0, 0, fun _ => 0, fun _ => 0⟩

/-- `x_2 = 1; y_3 = 2;`. -/
def swapInits : List (SsaEvent pointerEnv) :=
  [.assign 2 .integerCst (.sec1 0 .intCst [1]) 0 fun _ => 0,
   .assign 3 .integerCst (.sec1 0 .intCst [2]) 0 fun _ => 0]

/-- The phis of the first trip. -/
def firstTrip : List (SsaEvent pointerEnv) :=
  [.phi 0 2 0 0 (fun _ => 0) fun _ => 0, .phi 1 3 0 0 (fun _ => 0) fun _ => 0]

/-- The loop is entered: both phis take the initial values. -/
theorem phiBlock_exact_entered :
    ∃ s c t, exec (ssaStep plainNames 3) plainStart.state swapInits = some s ∧
      exec (cpStep swapCfg 3) swapCfg.start [.finish, .adjust, .finish, .adjust] = some c ∧
      exec (phiStep plainNames 3 swapCfg 3 c swapBlock) ⟨s, bbFirstGimple swapBlock⟩
        [firstDraw, firstDraw] = some t ∧
      PhisRight plainNames swapCfg c s.heap swapBlock.phiNodes t.frame.heap := by
  have hes : ∀ e ∈ swapInits, GivesRegister e := fun e he => by
    simp only [swapInits, List.mem_cons, List.not_mem_nil, or_false] at he
    obtain rfl | rfl := he <;> rfl
  refine ⟨_, _, _, rfl, rfl, rfl, (@phiBlock_exact _ _ 3 swapCfg 3 _ swapBlock plainStart swapInits
    _ hes rfl [firstDraw, firstDraw] _ rfl fun _ _ h => ?_).1 fun e k k' he hk htakes p hp => ?_⟩
  · cases h
  · cases he
    obtain rfl : k' = 0 := takesArg_unique htakes (takesArg_iff.mpr ⟨3, rfl⟩)
    have hk₀ : k = 0 := by
      obtain ⟨hlt, -⟩ := List.getElem?_eq_some_iff.mp hk
      have hedge : (swapCfg.preds 2)[0]? = some ⟨1, 2, true⟩ := rfl
      exact (List.getElem?_inj hlt (swapCfg.preds_nodup 2)).mp (hk.trans hedge.symm)
    subst hk₀
    simp only [swapBlock, List.mem_cons, List.not_mem_nil, or_false] at hp
    obtain rfl | rfl := hp
    · exact .refl (.sec1 0 .intCst [1])
    · exact .refl (.sec1 0 .intCst [2])

/-- After the edge back the second phi takes what the first one has got: `b` keeps its value. -/
theorem swap_lost :
    ∃ s c t, exec (ssaStep plainNames 3) plainStart.state (swapInits ++ firstTrip) = some s ∧
      exec (cpStep swapCfg 3) swapCfg.start
        [.finish, .adjust, .finish, .adjust, .finish, .adjust, .branch ⟨3, 2, false⟩] = some c ∧
      exec (phiStep plainNames 3 swapCfg 3 c swapBlock) ⟨s, bbFirstGimple swapBlock⟩
        [firstDraw, firstDraw] = some t ∧ t.curpos = .stmt 0 [] ∧
      ¬ PhisRight plainNames swapCfg c s.heap swapBlock.phiNodes t.frame.heap := by
  refine ⟨_, _, _, rfl, rfl, rfl, rfl, fun hright => ?_⟩
  obtain ⟨fuel, h₁, h₂, t, u, hop, hread, hget, hsame⟩ := hright ⟨3, 2, false⟩ 1 rfl rfl _
    (List.mem_cons_of_mem _ List.mem_cons_self) (.sec1 0 .intCst [1]) ⟨rfl, rfl⟩ fun _ => 0
  cases hop
  match fuel with
  | 0 => cases hread
  | _ + 1 =>
    cases hread
    cases hget
    cases hsame

end Srcinv.Analysis
