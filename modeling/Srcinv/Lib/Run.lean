import Mathlib.Logic.Basic
import Mathlib.Tactic.TypeStar

/-!
# Runs of a partial step function

A component is a function `step : σ → ε → Option σ`: the event carries everything the
environment decides (thread, outcome of a call, input), and `none` says that the event cannot
happen or that the program stops there.  `exec` folds it over a list of events.

* `Visits` — a predicate holds in every state a run goes through.
* `Along` — a predicate holds of every step a run takes, seen with the state before it.
* `visits_of_along` — an invariant that survives every step meeting a guard holds in every
  state of a run whose steps all meet the guard.
* `rel_of_along` — a preorder that every such step is in relates the ends of the run.
* `visits_along_iff` — when missing the guard spoils the step or the state after it, the two
  sides are equivalent.
* `foldlM_accumulates` — what the steps of a loop add is what the loop adds.
* `foldlM_total` — a loop whose steps keep an invariant comes back with it.
* `gather_exact` — a loop that collects lists, none of them too long, collects what it should
  exactly if every step does.
-/

namespace Srcinv.Lib

variable {σ ε : Type*}

/-- Run a list of events from a state. -/
def exec (step : σ → ε → Option σ) : σ → List ε → Option σ
  | s, [] => some s
  | s, e :: es =>
    match step s e with
    | none => none
    | some s' => exec step s' es

/-- `Q` holds in every state the run goes through, the first and the last included. -/
def Visits (step : σ → ε → Option σ) (Q : σ → Prop) : σ → List ε → Prop
  | s, [] => Q s
  | s, e :: es => Q s ∧ ∀ s', step s e = some s' → Visits step Q s' es

/-- `G` holds of every event of the run in the state it happens in. -/
def Along (step : σ → ε → Option σ) (G : σ → ε → Prop) : σ → List ε → Prop
  | _, [] => True
  | s, e :: es => G s e ∧ ∀ s', step s e = some s' → Along step G s' es

variable {step : σ → ε → Option σ} {Q Inv : σ → Prop} {G R : σ → ε → Prop}

theorem exec_cons_of_step {s s' : σ} {e : ε} (h : step s e = some s') (es : List ε) :
    exec step s (e :: es) = exec step s' es := by
  simp [exec, h]

theorem Visits.head {s : σ} {es : List ε} (h : Visits step Q s es) : Q s := by
  cases es with
  | nil => exact h
  | cons e es => exact h.1

/-- `Visits` in terms of the states that prefixes of the run end in. -/
theorem visits_iff_exec {s : σ} {es : List ε} :
    Visits step Q s es ↔ ∀ pre post s', es = pre ++ post → exec step s pre = some s' → Q s' := by
  induction es generalizing s with
  | nil =>
    constructor
    · intro h pre post s' he hx
      obtain ⟨rfl, rfl⟩ := List.append_eq_nil_iff.mp he.symm
      cases hx
      exact h
    · intro h
      exact h [] [] s rfl rfl
  | cons e es ih =>
    constructor
    · rintro ⟨h0, h1⟩ pre post s' he hx
      cases pre with
      | nil => cases hx; exact h0
      | cons e' pre =>
        simp only [List.cons_append, List.cons.injEq] at he
        obtain ⟨rfl, rfl⟩ := he
        cases hs : step s e with
        | none => simp [exec, hs] at hx
        | some t =>
          rw [exec_cons_of_step hs] at hx
          exact ih.mp (h1 t hs) pre post s' rfl hx
    · intro h
      refine ⟨h [] (e :: es) s rfl rfl, fun t ht => ih.mpr ?_⟩
      intro pre post s' he hx
      exact h (e :: pre) post s' (by simp [he]) (by rw [exec_cons_of_step ht]; exact hx)

theorem Visits.mono {Q' : σ → Prop} (hQ : ∀ s, Q s → Q' s) :
    ∀ {es : List ε} {s : σ}, Visits step Q s es → Visits step Q' s es
  | [], _, h => hQ _ h
  | _ :: _, _, h => ⟨hQ _ h.1, fun s' hs => Visits.mono hQ (h.2 s' hs)⟩

/-- **Guarded invariant rule.** -/
theorem visits_of_along (hstep : ∀ s e s', Inv s → G s e → step s e = some s' → Inv s') :
    ∀ {es : List ε} {s : σ}, Inv s → Along step G s es → Visits step Inv s es
  | [], _, hi, _ => hi
  | e :: _, s, hi, hg =>
    ⟨hi, fun s' hs => visits_of_along hstep (hstep s e s' hi hg.1 hs) (hg.2 s' hs)⟩

/-- What the invariant and the guard give of a step holds of every step of a guarded run. -/
theorem along_of_along (hstep : ∀ s e s', Inv s → G s e → step s e = some s' → Inv s')
    (hR : ∀ s e, Inv s → G s e → R s e) :
    ∀ {es : List ε} {s : σ}, Inv s → Along step G s es → Along step R s es
  | [], _, _, _ => trivial
  | e :: _, s, hi, hg => ⟨hR s e hi hg.1, fun s' hs =>
      along_of_along hstep hR (hstep s e s' hi hg.1 hs) (hg.2 s' hs)⟩

/-- The end of a guarded run is guarded. -/
theorem Along.rest {t : σ} {es : List ε} :
    ∀ {pre : List ε} {s : σ}, Along step G s (pre ++ es) → exec step s pre = some t →
      Along step G t es
  | [], _, hg, hx => by
    cases hx
    exact hg
  | e :: _, s, hg, hx => by
    cases hs : step s e with
    | none => simp [exec, hs] at hx
    | some s' =>
      rw [exec_cons_of_step hs] at hx
      exact (hg.2 s' hs).rest hx

/-- The beginning of a guarded run is guarded. -/
theorem Along.front {es : List ε} :
    ∀ {pre : List ε} {s : σ}, Along step G s (pre ++ es) → Along step G s pre
  | [], _, _ => trivial
  | _ :: _, _, hg => ⟨hg.1, fun s' hs => (hg.2 s' hs).front⟩

/-- **What the steps of a guarded run relate, the run relates.** -/
theorem rel_of_along {L : σ → σ → Prop}
    (hstep : ∀ s e s', Inv s → G s e → step s e = some s' → Inv s' ∧ L s s')
    (hrefl : ∀ s, L s s) (htrans : ∀ s t u, L s t → L t u → L s u) :
    ∀ {es : List ε} {s t : σ}, Inv s → Along step G s es → exec step s es = some t →
      Inv t ∧ L s t
  | [], s, _, hi, _, hx => by
    cases hx
    exact ⟨hi, hrefl s⟩
  | e :: _, s, t, hi, hg, hx => by
    cases hs : step s e with
    | none => simp [exec, hs] at hx
    | some s' =>
      rw [exec_cons_of_step hs] at hx
      obtain ⟨hi', hl⟩ := hstep s e s' hi hg.1 hs
      obtain ⟨hit, hl'⟩ := rel_of_along hstep hrefl htrans hi' (hg.2 s' hs) hx
      exact ⟨hit, htrans s s' t hl hl'⟩

/-- Where the invariant makes two properties of a step the same, they hold along the same runs. -/
theorem along_congr (hstep : ∀ s e s', Inv s → G s e → step s e = some s' → Inv s')
    (h : ∀ s e, Inv s → (R s e ↔ G s e)) :
    ∀ {es : List ε} {s : σ}, Inv s → (Along step R s es ↔ Along step G s es)
  | [], _, _ => Iff.rfl
  | e :: _, s, hi => by
    simp only [Along]
    rw [h s e hi]
    refine and_congr_right fun hg => forall_congr' fun s' => forall_congr' fun hs => ?_
    exact along_congr hstep h (hstep s e s' hi hg hs)

/-- Unguarded form: an invariant of every step holds in every state of every run. -/
theorem visits_of_step (hstep : ∀ s e s', Inv s → step s e = some s' → Inv s') (es : List ε)
    {s : σ} (hi : Inv s) : Visits step Inv s es := by
  induction es generalizing s with
  | nil => exact hi
  | cons e es ih => exact ⟨hi, fun s' hs => ih (hstep s e s' hi hs)⟩

/-- Two properties of steps that the invariant and a guard make the same, along a guarded run. -/
theorem along_congr_of_along {H : σ → ε → Prop}
    (hstep : ∀ s e s', Inv s → H s e → step s e = some s' → Inv s')
    (h : ∀ s e, Inv s → H s e → (R s e ↔ G s e)) :
    ∀ {es : List ε} {s : σ}, Inv s → Along step H s es → (Along step R s es ↔ Along step G s es)
  | [], _, _, _ => Iff.rfl
  | e :: _, s, hi, hg => and_congr (h s e hi hg.1) (forall_congr' fun s' => forall_congr' fun hs =>
      along_congr_of_along hstep h (hstep s e s' hi hg.1 hs) (hg.2 s' hs))

/-- **Exact guard.**  If the invariant gives `Q`, the guard gives `R` and keeps the invariant,
and a step that meets `R` without the guard ends in a state without `Q`, then `Q` and `R` hold
all along a run exactly when the guard does. -/
theorem visits_along_iff (hstep : ∀ s e s', Inv s → G s e → step s e = some s' → Inv s')
    (hQ : ∀ s, Inv s → Q s) (hR : ∀ s e, Inv s → G s e → R s e)
    (hbad : ∀ s e, Inv s → ¬ G s e → R s e → ∃ s', step s e = some s' ∧ ¬ Q s')
    {es : List ε} {s : σ} (hi : Inv s) :
    (Visits step Q s es ∧ Along step R s es) ↔ Along step G s es := by
  induction es generalizing s with
  | nil => exact ⟨fun _ => trivial, fun _ => ⟨hQ s hi, trivial⟩⟩
  | cons e es ih =>
    constructor
    · rintro ⟨⟨_, hv⟩, hr, hrs⟩
      have hg : G s e := Classical.byContradiction fun hng => by
        obtain ⟨s', hs, hnq⟩ := hbad s e hi hng hr
        exact hnq (hv s' hs).head
      exact ⟨hg, fun s' hs => (ih (hstep s e s' hi hg hs)).mp ⟨hv s' hs, hrs s' hs⟩⟩
    · rintro ⟨hg, hgs⟩
      have hrest := fun s' hs => (ih (hstep s e s' hi hg hs)).mpr (hgs s' hs)
      exact ⟨⟨hQ s hi, fun s' hs => (hrest s' hs).1⟩, hR s e hi hg, fun s' hs => (hrest s' hs).2⟩

/-- The exact guard of a property of states. -/
theorem visits_iff_along (hstep : ∀ s e s', Inv s → G s e → step s e = some s' → Inv s')
    (hQ : ∀ s, Inv s → Q s)
    (hbad : ∀ s e, Inv s → ¬ G s e → ∃ s', step s e = some s' ∧ ¬ Q s')
    {es : List ε} {s : σ} (hi : Inv s) : Visits step Q s es ↔ Along step G s es := by
  have htriv : ∀ {es : List ε} {s : σ}, Along step (fun _ _ => True) s es := by
    intro es
    induction es with
    | nil => exact trivial
    | cons e es ih => exact ⟨trivial, fun _ _ => ih⟩
  have h : (Visits step Q s es ∧ Along step (fun _ _ => True) s es) ↔ Along step G s es :=
    visits_along_iff hstep hQ (fun _ _ _ _ => trivial) (fun s e hi hg _ => hbad s e hi hg) hi
  exact ⟨fun hv => h.mp ⟨hv, htriv⟩, fun ha => (h.mpr ha).1⟩

/-! ## Loops -/

/-- `R T s t` says that `t` is `s` with the marks in `T` added; doing nothing adds none, and one
after the other adds both. -/
structure Accumulates {ι : Type*} (R : (ι → Prop) → σ → σ → Prop) : Prop where
  refl : ∀ s, R (fun _ => False) s s
  trans : ∀ T T' s t u, R T s t → R T' t u → R (fun i => T i ∨ T' i) s u

variable {ι α : Type*} {S : (ι → Prop) → σ → σ → Prop}

/-- **A loop adds what its steps add.** -/
theorem foldlM_accumulates (hS : Accumulates S) {f : σ → α → Option σ} {T : α → ι → Prop}
    (vs : List α) (hf : ∀ v ∈ vs, ∀ s, ∃ t, f s v = some t ∧ S (T v) s t) (s : σ) :
    ∃ t, vs.foldlM f s = some t ∧ S (fun i => ∃ v ∈ vs, T v i) s t := by
  induction vs generalizing s with
  | nil =>
    refine ⟨s, rfl, ?_⟩
    have hnone : (fun i => ∃ v ∈ ([] : List α), T v i) = fun _ => False := by
      funext i
      simp
    rw [hnone]
    exact hS.refl s
  | cons v vs ih =>
    obtain ⟨t, hv, ht⟩ := hf v List.mem_cons_self s
    obtain ⟨u, hvs, hu⟩ := ih (fun w hw => hf w (List.mem_cons_of_mem v hw)) t
    refine ⟨u, ?_, ?_⟩
    · rw [List.foldlM_cons, hv]
      exact hvs
    · have hor : (fun i => ∃ w ∈ v :: vs, T w i) = fun i => T v i ∨ ∃ w ∈ vs, T w i := by
        funext i
        simp
      rw [hor]
      exact hS.trans _ _ s t u ht hu

/-- A loop that comes back added what its steps add. -/
theorem foldlM_accumulates_some (hS : Accumulates S) {f : σ → α → Option σ} {T : α → ι → Prop}
    {vs : List α} {s t : σ} (hf : ∀ v ∈ vs, ∀ s t, f s v = some t → S (T v) s t)
    (h : vs.foldlM f s = some t) : S (fun i => ∃ v ∈ vs, T v i) s t := by
  induction vs generalizing s with
  | nil =>
    cases h
    have hnone : (fun i => ∃ v ∈ ([] : List α), T v i) = fun _ => False := by
      funext i
      simp
    rw [hnone]
    exact hS.refl _
  | cons v vs ih =>
    rw [List.foldlM_cons] at h
    obtain ⟨s', hv, hvs⟩ := Option.bind_eq_some_iff.mp h
    have hrest := ih (fun w hw => hf w (List.mem_cons_of_mem v hw)) hvs
    have hor : (fun i => ∃ w ∈ v :: vs, T w i) = fun i => T v i ∨ ∃ w ∈ vs, T w i := by
      funext i
      simp
    rw [hor]
    exact hS.trans _ _ s s' t (hf v List.mem_cons_self s s' hv) hrest

/-- A loop comes back if its steps do, where that does not depend on the state. -/
theorem foldlM_isSome_iff {f : σ → α → Option σ} {P : α → Prop} {vs : List α} {s : σ}
    (hf : ∀ v ∈ vs, ∀ s, (f s v).isSome ↔ P v) : (vs.foldlM f s).isSome ↔ ∀ v ∈ vs, P v := by
  induction vs generalizing s with
  | nil => simp
  | cons v vs ih =>
    have hv := hf v List.mem_cons_self s
    rw [List.foldlM_cons]
    cases hs : f s v with
    | none =>
      rw [hs] at hv
      refine ⟨fun h => (by cases h), fun h => ?_⟩
      exact absurd (hv.mpr (h v List.mem_cons_self)) (by simp)
    | some s' =>
      rw [hs] at hv
      show (vs.foldlM f s').isSome ↔ _
      rw [ih fun w hw => hf w (List.mem_cons_of_mem v hw)]
      simp [hv.mp rfl]

/-- **A loop whose steps keep an invariant comes back with it.**  The invariant says what holds
    once the values of a list are done. -/
theorem foldlM_total {f : σ → α → Option σ} {I : List α → σ → Prop} (vs : List α) {s : σ}
    (h0 : I [] s) (hstep : ∀ pre v post, vs = pre ++ v :: post → ∀ s, I pre s →
      ∃ t, f s v = some t ∧ I (pre ++ [v]) t) :
    ∃ t, vs.foldlM f s = some t ∧ I vs t := by
  have hrun : ∀ post pre s, vs = pre ++ post → I pre s →
      ∃ t, post.foldlM f s = some t ∧ I vs t := by
    intro post
    induction post with
    | nil =>
      intro pre s hvs hi
      rw [List.append_nil] at hvs
      exact ⟨s, rfl, hvs ▸ hi⟩
    | cons v post ih =>
      intro pre s hvs hi
      obtain ⟨t, hv, ht⟩ := hstep pre v post hvs s hi
      obtain ⟨u, hpost, hu⟩ := ih (pre ++ [v]) t (by rw [hvs, List.append_assoc]; rfl) ht
      refine ⟨u, ?_, hu⟩
      rw [List.foldlM_cons, hv]
      exact hpost
  exact hrun vs [] s rfl h0

/-- A loop that comes back went through all values. -/
theorem foldlM_some {f : σ → α → Option σ} {vs : List α} {s t : σ}
    (h : vs.foldlM f s = some t) : ∀ v ∈ vs, ∃ s₁ s₂, f s₁ v = some s₂ := by
  induction vs generalizing s with
  | nil => intro v hv; cases hv
  | cons w ws ih =>
    rw [List.foldlM_cons] at h
    obtain ⟨s₁, hw, h⟩ := Option.bind_eq_some_iff.mp h
    intro v hv
    obtain rfl | hv := List.mem_cons.mp hv
    · exact ⟨s, s₁, hw⟩
    · exact ih h v hv

/-! ## Gathering -/

section Gather

variable {β γ : Type*}

/-- A loop that collects the lists of its steps. -/
def gather (f : α → Option (List β)) : List α → Option (List β)
  | [] => some []
  | a :: as => (f a).bind fun x => (gather f as).map (x ++ ·)

variable {f : α → Option (List β)} {g : α → List γ} {l : List α}

theorem gather_map {δ : Type*} (h : δ → α) (l : List δ) :
    gather f (l.map h) = gather (fun d => f (h d)) l := by
  induction l with
  | nil => rfl
  | cons d l ih => simp only [List.map_cons, gather, ih]

/-- What is collected is not longer than what should be, if no step collects too much. -/
theorem gather_length_le (hle : ∀ a ∈ l, ∀ x, f a = some x → x.length ≤ (g a).length)
    {r : List β} (h : gather f l = some r) : r.length ≤ (l.flatMap g).length := by
  induction l generalizing r with
  | nil =>
    cases h
    exact Nat.le_refl _
  | cons a l ih =>
    obtain ⟨x, hx, h⟩ := Option.bind_eq_some_iff.mp h
    obtain ⟨r', hr', rfl⟩ := Option.map_eq_some_iff.mp h
    have hfirst := hle a List.mem_cons_self x hx
    have hrest := ih (fun b hb => hle b (List.mem_cons_of_mem a hb)) hr'
    simp only [List.flatMap_cons, List.length_append]
    omega

/-- A loop of which each step collects what it should, as far as `m` and `k` tell, does so. -/
theorem gather_congr {δ : Type*} {m : β → δ} {k : γ → δ}
    (h : ∀ a ∈ l, ∃ x, f a = some x ∧ x.map m = (g a).map k) :
    ∃ r, gather f l = some r ∧ r.map m = (l.flatMap g).map k := by
  induction l with
  | nil => exact ⟨[], rfl, rfl⟩
  | cons a l ih =>
    obtain ⟨x, hx, hmap⟩ := h a List.mem_cons_self
    obtain ⟨r, hr, hmap'⟩ := ih fun b hb => h b (List.mem_cons_of_mem a hb)
    refine ⟨x ++ r, ?_, ?_⟩
    · rw [gather, hx, hr]
      rfl
    · rw [List.flatMap_cons, List.map_append, List.map_append, hmap, hmap']

/-- **As no step collects too much, nothing can make up for a step that collects too little.** -/
theorem gather_exact (m : β → γ) (hle : ∀ a ∈ l, ∀ x, f a = some x → x.length ≤ (g a).length) :
    (gather f l).map (List.map m) = some (l.flatMap g) ↔
      ∀ a ∈ l, (f a).map (List.map m) = some (g a) := by
  induction l with
  | nil => simp [gather]
  | cons a l ih =>
    have hrest : ∀ b ∈ l, ∀ x, f b = some x → x.length ≤ (g b).length :=
      fun b hb => hle b (List.mem_cons_of_mem a hb)
    rw [List.forall_mem_cons, ← ih hrest, List.flatMap_cons]
    constructor
    · intro h
      obtain ⟨r, hr, hmap⟩ := Option.map_eq_some_iff.mp h
      obtain ⟨x, hx, hr⟩ := Option.bind_eq_some_iff.mp hr
      obtain ⟨r', hr', rfl⟩ := Option.map_eq_some_iff.mp hr
      have hfirst := hle a List.mem_cons_self x hx
      have hmore := gather_length_le hrest hr'
      rw [List.map_append] at hmap
      have hlen := congrArg List.length hmap
      simp only [List.length_append, List.length_map] at hlen
      obtain ⟨hx', hr''⟩ := List.append_inj hmap (by rw [List.length_map]; omega)
      rw [hx, hr', Option.map_some, Option.map_some, hx', hr'']
      exact ⟨rfl, rfl⟩
    · rintro ⟨hfirst, hmore⟩
      obtain ⟨x, hx, hx'⟩ := Option.map_eq_some_iff.mp hfirst
      obtain ⟨r, hr, hr'⟩ := Option.map_eq_some_iff.mp hmore
      unfold gather
      rw [hx, hr, Option.bind_some, Option.map_some, Option.map_some, List.map_append, hx', hr']

end Gather

end Srcinv.Lib
