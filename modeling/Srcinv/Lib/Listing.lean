import Mathlib.Data.List.Forall2
import Mathlib.Logic.Relation

/-!
# Listings of a graph with shared nodes

A walk lists the nodes of a graph, each before those below it.  A shared node is listed the first
time the walk comes to it, and known from then on; other nodes belong to the one place that leads to
them, and are listed there.  `node i` is what the listing has at place `i`.

* `Listing` — what a walk through some links lists, and the place that each link leads to.
* `Listing.reached`, `Whole.reached` — what is listed can be reached, and conversely.
* `Listing.whole`, `Whole.apart` — the places listed make up a copy of the graph: each node listed
  has its links, and no two links lead to the same node of one's own.
-/

namespace Srcinv.Lib

/-- What a place of a node leads to: a node that others may share, or one of its own. -/
inductive Link (α β : Type*) where
  | shared (a : α)
  | own (b : β)
  deriving DecidableEq, Repr

variable {α β : Type*} (below : Link α β → List (Link α β)) (null : α)
  (node : Nat → Option (Link α β))

/-- **A walk through `ls` from place `k` on ends before place `k'`**, and the links lead to the
    places `ps`. -/
inductive Listing : Nat → List (Link α β) → List (Option Nat) → Nat → Prop
  | nil (k : Nat) : Listing k [] [] k
  | null {k k' ls ps} (rest : Listing k ls ps k') : Listing k (.shared null :: ls) (none :: ps) k'
  | seen {k k' a i ls ps} (hne : a ≠ null) (hi : i < k) (hnode : node i = some (.shared a))
      (rest : Listing k ls ps k') : Listing k (.shared a :: ls) (some i :: ps) k'
  | enter {k k₁ k' a ls qs ps} (hne : a ≠ null) (hnew : ∀ i < k, node i ≠ some (.shared a))
      (hnode : node k = some (.shared a)) (sub : Listing (k + 1) (below (.shared a)) qs k₁)
      (rest : Listing k₁ ls ps k') : Listing k (.shared a :: ls) (some k :: ps) k'
  | own {k k₁ k' b ls qs ps} (hnode : node k = some (.own b))
      (sub : Listing (k + 1) (below (.own b)) qs k₁) (rest : Listing k₁ ls ps k') :
      Listing k (.own b :: ls) (some k :: ps) k'

namespace Listing

/-- The links of the node at place `i` lead to the places `qs`. -/
def Out (i : Nat) (qs : List (Option Nat)) : Prop :=
  ∃ l k₁, node i = some l ∧ Listing below null node (i + 1) (below l) qs k₁

/-- A link leads to a place: of a shared node that is listed before `hi`, or of a node that is
    listed from `lo` on. -/
inductive Leads (lo hi : Nat) : Link α β → Option Nat → Prop
  | null : Leads lo hi (.shared null) none
  | shared {a p} (hne : a ≠ null) (hp : p < hi) (hnode : node p = some (.shared a)) :
      Leads lo hi (.shared a) (some p)
  | own {b p} (hlo : lo ≤ p) (hp : p < hi) (hnode : node p = some (.own b)) :
      Leads lo hi (.own b) (some p)

/-- Each shared node has one place. -/
def Once : Prop := ∀ a i j, node i = some (.shared a) → node j = some (.shared a) → i = j

/-- Each shared node has one place before `k`. -/
def OnceBefore (k : Nat) : Prop :=
  ∀ a i j, i < k → j < k → node i = some (.shared a) → node j = some (.shared a) → i = j

/-- A node leads to another one. -/
def Steps (l l' : Link α β) : Prop := l ≠ .shared null ∧ l' ∈ below l

variable {below null node} {k k' k₁ lo hi lo' hi' i : Nat} {ls ls' : List (Link α β)}
  {ps ps' : List (Option Nat)} {l : Link α β}

/-! ## One walk -/

theorem le (h : Listing below null node k ls ps k') : k ≤ k' := by
  induction h with
  | nil => exact Nat.le_refl _
  | null _ ih => exact ih
  | seen _ _ _ _ ih => exact ih
  | enter _ _ _ _ _ ihsub ihrest => omega
  | own _ _ _ ihsub ihrest => omega

theorem append {k'' : Nat} (h : Listing below null node k ls ps k')
    (h' : Listing below null node k' ls' ps' k'') :
    Listing below null node k (ls ++ ls') (ps ++ ps') k'' := by
  induction h with
  | nil => exact h'
  | null _ ih => exact .null (ih h')
  | seen hne hi hnode _ ih => exact .seen hne hi hnode (ih h')
  | enter hne hnew hnode sub _ _ ih => exact .enter hne hnew hnode sub (ih h')
  | own hnode sub _ _ ih => exact .own hnode sub (ih h')

/-- Shared nodes that are listed once stay so. -/
theorem once (h : Listing below null node k ls ps k') (hk : OnceBefore node k) :
    OnceBefore node k' := by
  induction h with
  | nil => exact hk
  | null _ ih => exact ih hk
  | seen _ _ _ _ ih => exact ih hk
  | @enter k k₁ k' a ls qs ps hne hnew hnode sub rest ihsub ihrest =>
    refine ihrest (ihsub fun b i j hi hj hnodei hnodej => ?_)
    rcases Nat.lt_succ_iff_lt_or_eq.mp hi with hik | rfl <;>
      rcases Nat.lt_succ_iff_lt_or_eq.mp hj with hjk | rfl
    · exact hk b i j hik hjk hnodei hnodej
    · rw [hnode] at hnodej
      cases hnodej
      exact absurd hnodei (hnew i hik)
    · rw [hnode] at hnodei
      cases hnodei
      exact absurd hnodej (hnew j hjk)
    · rfl
  | @own k k₁ k' b ls qs ps hnode sub rest ihsub ihrest =>
    refine ihrest (ihsub fun a i j hi hj hnodei hnodej => ?_)
    rcases Nat.lt_succ_iff_lt_or_eq.mp hi with hik | rfl
    · rcases Nat.lt_succ_iff_lt_or_eq.mp hj with hjk | rfl
      · exact hk a i j hik hjk hnodei hnodej
      · rw [hnode] at hnodej
        cases hnodej
    · rw [hnode] at hnodei
      cases hnodei

theorem Leads.mono (hlo : lo' ≤ lo) (hhi : hi ≤ hi') {p : Option Nat}
    (h : Leads null node lo hi l p) : Leads null node lo' hi' l p := by
  cases h with
  | null => exact .null
  | shared hne hp hnode => exact .shared hne (by omega) hnode
  | own hl hp hnode => exact .own (by omega) (by omega) hnode

/-- **Where the links lead.** -/
theorem leads (h : Listing below null node k ls ps k') :
    List.Forall₂ (Leads null node k k') ls ps := by
  induction h with
  | nil => exact .nil
  | null _ ih => exact .cons .null ih
  | seen hne hi hnode rest ih =>
    exact .cons (.shared hne (Nat.lt_of_lt_of_le hi rest.le) hnode) ih
  | enter hne _ hnode sub rest _ ih =>
    have hsub := sub.le
    have hrest := rest.le
    exact .cons (.shared hne (by omega) hnode)
      (ih.imp fun _ _ hl => hl.mono (by omega) (Nat.le_refl _))
  | own hnode sub rest _ ih =>
    have hsub := sub.le
    have hrest := rest.le
    exact .cons (.own (Nat.le_refl _) (by omega) hnode)
      (ih.imp fun _ _ hl => hl.mono (by omega) (Nat.le_refl _))

/-- Each link leads to some place. -/
theorem leads_mem (h : Listing below null node k ls ps k') (hl : l ∈ ls) :
    ∃ p, Leads null node k k' l p := by
  obtain ⟨n, hn, rfl⟩ := List.getElem_of_mem hl
  have hn' : n < ps.length := h.leads.length_eq ▸ hn
  exact ⟨_, h.leads.get hn hn'⟩

/-- A walk is determined by where it starts. -/
theorem unique (honce : Once node) (h : Listing below null node k ls ps k')
    (h' : Listing below null node k ls ps' k₁) : ps = ps' ∧ k' = k₁ := by
  induction h generalizing ps' k₁ with
  | nil =>
    cases h'
    exact ⟨rfl, rfl⟩
  | null _ ih =>
    cases h' with
    | null rest =>
      obtain ⟨rfl, rfl⟩ := ih rest
      exact ⟨rfl, rfl⟩
    | seen hne => exact absurd rfl hne
    | enter hne => exact absurd rfl hne
  | seen hne hi hnode _ ih =>
    cases h' with
    | null => exact absurd rfl hne
    | seen _ _ hnode' rest =>
      obtain ⟨rfl, rfl⟩ := ih rest
      exact ⟨by rw [honce _ _ _ hnode hnode'], rfl⟩
    | enter _ hnew => exact absurd hnode (hnew _ hi)
  | enter hne hnew _ _ _ ihsub ih =>
    cases h' with
    | null => exact absurd rfl hne
    | seen _ hi hnode' => exact absurd hnode' (hnew _ hi)
    | enter _ _ _ sub rest =>
      obtain ⟨-, rfl⟩ := ihsub sub
      obtain ⟨rfl, rfl⟩ := ih rest
      exact ⟨rfl, rfl⟩
  | own _ _ _ ihsub ih =>
    cases h' with
    | own _ sub rest =>
      obtain ⟨-, rfl⟩ := ihsub sub
      obtain ⟨rfl, rfl⟩ := ih rest
      exact ⟨rfl, rfl⟩

/-- A walk through links that lead to what is listed already ends where it starts. -/
theorem idle (h : Listing below null node k ls ps k')
    (hls : ∀ l ∈ ls, ∃ a, l = .shared a ∧ (a = null ∨ ∃ i < k, node i = some (.shared a))) :
    k' = k := by
  induction h with
  | nil => rfl
  | null _ ih => exact ih fun l hl => hls l (List.mem_cons_of_mem _ hl)
  | seen _ _ _ _ ih => exact ih fun l hl => hls l (List.mem_cons_of_mem _ hl)
  | enter hne hnew =>
    obtain ⟨a, ha, h0 | ⟨i, hi, hnode⟩⟩ := hls _ List.mem_cons_self <;> cases ha
    · exact absurd h0 hne
    · exact absurd hnode (hnew i hi)
  | own =>
    obtain ⟨a, ha, -⟩ := hls _ List.mem_cons_self
    cases ha

/-- What is listed can be reached from the links. -/
theorem reached (h : Listing below null node k ls ps k') (hk : k ≤ i) (hk' : i < k')
    (hi : node i = some l) :
    l ≠ .shared null ∧ ∃ r ∈ ls, Relation.ReflTransGen (Steps below null) r l := by
  induction h generalizing i l with
  | nil => omega
  | null _ ih =>
    obtain ⟨hne, r, hr, hreach⟩ := ih hk hk' hi
    exact ⟨hne, r, List.mem_cons_of_mem _ hr, hreach⟩
  | seen _ _ _ _ ih =>
    obtain ⟨hne, r, hr, hreach⟩ := ih hk hk' hi
    exact ⟨hne, r, List.mem_cons_of_mem _ hr, hreach⟩
  | @enter k k₁ k' a ls qs ps hnea _ hnode _ _ ihsub ih =>
    have hna : Link.shared (β := β) a ≠ .shared null := fun heq => hnea (Link.shared.inj heq)
    rcases Nat.eq_or_lt_of_le hk with rfl | hlt
    · rw [hnode] at hi
      cases hi
      exact ⟨hna, _, List.mem_cons_self, .refl⟩
    · rcases Nat.lt_or_ge i k₁ with hin | hout
      · obtain ⟨hne, r, hr, hreach⟩ := ihsub hlt hin hi
        exact ⟨hne, _, List.mem_cons_self, .head ⟨hna, hr⟩ hreach⟩
      · obtain ⟨hne, r, hr, hreach⟩ := ih hout hk' hi
        exact ⟨hne, r, List.mem_cons_of_mem _ hr, hreach⟩
  | @own k k₁ k' b ls qs ps hnode _ _ ihsub ih =>
    have hnb : Link.own (α := α) b ≠ .shared null := fun heq => (by cases heq)
    rcases Nat.eq_or_lt_of_le hk with rfl | hlt
    · rw [hnode] at hi
      cases hi
      exact ⟨hnb, _, List.mem_cons_self, .refl⟩
    · rcases Nat.lt_or_ge i k₁ with hin | hout
      · obtain ⟨hne, r, hr, hreach⟩ := ihsub hlt hin hi
        exact ⟨hne, _, List.mem_cons_self, .head ⟨hnb, hr⟩ hreach⟩
      · obtain ⟨hne, r, hr, hreach⟩ := ih hout hk' hi
        exact ⟨hne, r, List.mem_cons_of_mem _ hr, hreach⟩

/-! ## The listing as a copy -/

variable (below null node) in
/-- The places from `lo` on and before `hi` are closed: what the links of a node there list is
    there, too. -/
def Closed (lo hi : Nat) : Prop :=
  ∀ i l, lo ≤ i → i < hi → node i = some l →
    ∃ qs k₁, Listing below null node (i + 1) (below l) qs k₁ ∧ k₁ ≤ hi

/-- Every node that a walk lists has its links. -/
theorem closed (h : Listing below null node k ls ps k') : Closed below null node k k' := by
  induction h with
  | nil => exact fun i l hk hk' => absurd hk' (Nat.not_lt.mpr hk)
  | null _ ih => exact ih
  | seen _ _ _ _ ih => exact ih
  | @enter k k₁ k' a ls qs ps _ _ hnode sub rest ihsub ih =>
    intro i l hk hk' hi
    have hrest := rest.le
    rcases Nat.eq_or_lt_of_le hk with rfl | hlt
    · rw [hnode] at hi
      cases hi
      exact ⟨qs, k₁, sub, hrest⟩
    · rcases Nat.lt_or_ge i k₁ with hin | hout
      · obtain ⟨qs', k₂, hsub, hle⟩ := ihsub i l hlt hin hi
        exact ⟨qs', k₂, hsub, Nat.le_trans hle hrest⟩
      · exact ih i l hout hk' hi
  | @own k k₁ k' b ls qs ps hnode sub rest ihsub ih =>
    intro i l hk hk' hi
    have hrest := rest.le
    rcases Nat.eq_or_lt_of_le hk with rfl | hlt
    · rw [hnode] at hi
      cases hi
      exact ⟨qs, k₁, sub, hrest⟩
    · rcases Nat.lt_or_ge i k₁ with hin | hout
      · obtain ⟨qs', k₂, hsub, hle⟩ := ihsub i l hlt hin hi
        exact ⟨qs', k₂, hsub, Nat.le_trans hle hrest⟩
      · exact ih i l hout hk' hi

/-- What a node leads to is where a walk below it says. -/
theorem Out.eq (honce : Once node) {qs qs' : List (Option Nat)} (h : Out below null node i qs)
    (hnode : node i = some l) (h' : Listing below null node (i + 1) (below l) qs' k₁) :
    qs = qs' := by
  obtain ⟨l', k₂, hnode', hpre⟩ := h
  rw [hnode] at hnode'
  cases hnode'
  exact (hpre.unique honce h').1

variable (below null node) in
/-- Link `j` of a node listed from `lo` on and before `hi`, or of the walk itself, leads to the
    node of one's own at place `p`. -/
def OwnAt (lo hi : Nat) (ps : List (Option Nat)) (src : Option Nat) (j p : Nat) : Prop :=
  (∃ b, node p = some (.own b)) ∧
    match src with
    | none => ps[j]? = some (some p)
    | some i => lo ≤ i ∧ i < hi ∧ ∃ qs, Out below null node i qs ∧ qs[j]? = some (some p)

/-- The nodes of one's own that a walk leads to are among those it lists. -/
theorem ownAt_bounds (honce : Once node) (h : Listing below null node k ls ps k')
    {src : Option Nat} {j p : Nat} (hown : OwnAt below null node k k' ps src j p) :
    k ≤ p ∧ p < k' := by
  -- links that lead to a node of one's own lead to one from where their walk starts on
  have hleads : ∀ {k k' : Nat} {ls : List (Link α β)} {ps : List (Option Nat)} {b : β},
      Listing below null node k ls ps k' → node p = some (.own b) → ps[j]? = some (some p) →
        k ≤ p ∧ p < k' := by
    intro k k' ls ps b hpre hb hj
    obtain ⟨hlt, hget⟩ := List.getElem?_eq_some_iff.mp hj
    have hlen := hpre.leads.length_eq
    have hlead := hpre.leads.get (by omega) hlt
    simp only [List.get_eq_getElem, hget] at hlead
    generalize ls[j] = l at hlead
    cases hlead with
    | shared _ _ hnode =>
      rw [hb] at hnode
      cases hnode
    | own hlo hp => exact ⟨hlo, hp⟩
  obtain ⟨⟨b, hb⟩, hsrc⟩ := hown
  cases src with
  | none => exact hleads h hb hsrc
  | some i =>
    obtain ⟨hk, hk', qs, hout, hj⟩ := hsrc
    obtain ⟨l, k₁, hnode, hpre⟩ := hout
    obtain ⟨qs', k₂, hpre', hle⟩ := h.closed i l hk hk' hnode
    obtain ⟨rfl, rfl⟩ := hpre.unique honce hpre'
    have hp := hleads hpre hb hj
    omega

/-- The link of a walk behind its first one. -/
def behind : Option Nat × Nat → Option Nat × Nat
  | (none, j) => (none, j + 1)
  | (some i, j) => (some i, j)

/-- The link of a walk below the node at place `k`. -/
def inside (k : Nat) (origin : Option Nat × Nat) : Option Nat × Nat :=
  (some (origin.1.getD k), origin.2)

/-- A link that is not the first one. -/
theorem ownAt_behind {x : Option Nat} {src : Option Nat} {j p : Nat}
    (hx : src = none → j = 0 → x ≠ some p) (hsrc : ∀ i, src = some i → k₁ ≤ i)
    (hown : OwnAt below null node k k' (x :: ps) src j p) :
    ∃ src' j', (src, j) = behind (src', j') ∧ OwnAt below null node k₁ k' ps src' j' p := by
  obtain ⟨hb, hat⟩ := hown
  cases src with
  | none =>
    cases j with
    | zero => exact absurd (by simpa using hat) (hx rfl rfl)
    | succ j => exact ⟨none, j, rfl, hb, by simpa using hat⟩
  | some i =>
    obtain ⟨-, hk', hout⟩ := hat
    exact ⟨some i, j, rfl, hb, hsrc i rfl, hk', hout⟩

/-- A link of a node is one inside it, or one behind it. -/
theorem ownAt_split (honce : Once node) {qs : List (Option Nat)} {src : Option Nat} {j p : Nat}
    (hnode : node k = some l) (sub : Listing below null node (k + 1) (below l) qs k₁)
    (hown : OwnAt below null node k k' (some k :: ps) src j p) :
    ((src, j) = (none, 0) ∧ p = k) ∨
      (∃ src' j', (src, j) = inside k (src', j') ∧ OwnAt below null node (k + 1) k₁ qs src' j' p) ∨
      ∃ src' j', (src, j) = behind (src', j') ∧ OwnAt below null node k₁ k' ps src' j' p := by
  have hle := sub.le
  cases src with
  | none =>
    cases j with
    | zero => exact Or.inl ⟨rfl, by simpa using hown.2.symm⟩
    | succ j =>
      exact Or.inr (Or.inr (ownAt_behind (fun _ h => (by cases h))
        (fun _ h => (by cases h)) hown))
  | some i =>
    obtain ⟨hb, hk, -, qs', hout, hj⟩ := id hown
    refine Or.inr ?_
    rcases Nat.eq_or_lt_of_le hk with rfl | hlt
    · rw [hout.eq honce hnode sub] at hj
      exact Or.inl ⟨none, j, rfl, hb, hj⟩
    · rcases Nat.lt_or_ge i k₁ with hin | hge
      · exact Or.inl ⟨some i, j, rfl, hb, hlt, hin, qs', hout, hj⟩
      · exact Or.inr (ownAt_behind (fun h => (by cases h))
          (fun _ h => (by cases h; exact hge)) hown)

variable (below null node) in
/-- The link that leads to a node of one's own is given by its place. -/
def Origins (lo hi : Nat) (ps : List (Option Nat)) (origin : Nat → Option Nat × Nat) : Prop :=
  ∀ {src j p}, OwnAt below null node lo hi ps src j p → (src, j) = origin p

/-- The links of a walk, when those below its first node and those behind it are known. -/
theorem Origins.split (honce : Once node) {qs : List (Option Nat)}
    {origin₁ origin₂ : Nat → Option Nat × Nat} (hnode : node k = some l)
    (sub : Listing below null node (k + 1) (below l) qs k₁)
    (rest : Listing below null node k₁ ls ps k')
    (h₁ : Origins below null node (k + 1) k₁ qs origin₁)
    (h₂ : Origins below null node k₁ k' ps origin₂) :
    Origins below null node k k' (some k :: ps) fun p =>
      if p = k then (none, 0) else if p < k₁ then inside k (origin₁ p) else behind (origin₂ p) := by
  intro src j p hown
  have hle := sub.le
  dsimp only
  rcases ownAt_split honce hnode sub hown with ⟨heq, rfl⟩ | ⟨src', j', heq, hin⟩ |
    ⟨src', j', heq, hout⟩
  · rw [if_pos rfl, heq]
  · obtain ⟨hlo, hhi⟩ := sub.ownAt_bounds honce hin
    rw [heq, if_neg (by omega), if_pos hhi, h₁ hin]
  · have hge := (rest.ownAt_bounds honce hout).1
    rw [heq, if_neg (by omega), if_neg (by omega), h₂ hout]

/-- The links of a walk whose first one leads to no node of one's own. -/
theorem Origins.skip {x : Option Nat} {origin : Nat → Option Nat × Nat}
    (hx : ∀ p b, x = some p → node p ≠ some (.own b))
    (h : Origins below null node k k' ps origin) :
    Origins below null node k k' (x :: ps) fun p => behind (origin p) := by
  intro src j p hown
  obtain ⟨src', j', heq, hrest⟩ := ownAt_behind (fun _ _ hp => by
    obtain ⟨⟨b, hb⟩, -⟩ := hown
    exact hx p b hp hb) (fun i hi => by
    subst hi
    exact hown.2.1) hown
  rw [heq, h hrest]

/-- **Each node of one's own that a walk lists has one link.** -/
theorem origins (honce : Once node) (h : Listing below null node k ls ps k') :
    ∃ origin, Origins below null node k k' ps origin := by
  induction h with
  | nil k =>
    refine ⟨fun _ => (none, 0), @fun src j p hown => ?_⟩
    obtain ⟨-, hat⟩ := hown
    cases src with
    | none => cases hat
    | some i => exact absurd hat.2.1 (Nat.not_lt.mpr hat.1)
  | null _ ih =>
    obtain ⟨origin, horigin⟩ := ih
    exact ⟨_, Origins.skip (fun _ _ hp => (by cases hp)) horigin⟩
  | @seen _ _ _ i _ _ _ _ hnode _ ih =>
    obtain ⟨origin, horigin⟩ := ih
    refine ⟨_, Origins.skip (fun p b hp hb => ?_) horigin⟩
    cases hp
    rw [hnode] at hb
    cases hb
  | enter _ _ hnode sub rest ihsub ih =>
    obtain ⟨origin₁, h₁⟩ := ihsub
    obtain ⟨origin₂, h₂⟩ := ih
    exact ⟨_, Origins.split honce hnode sub rest h₁ h₂⟩
  | own hnode sub rest ihsub ih =>
    obtain ⟨origin₁, h₁⟩ := ihsub
    obtain ⟨origin₂, h₂⟩ := ih
    exact ⟨_, Origins.split honce hnode sub rest h₁ h₂⟩

/-! ## Several walks -/

variable (below null node) in
/-- **The places from `lo` on and before `hi` are a copy of the nodes listed there.** -/
structure Whole (lo hi : Nat) : Prop where
  closed : Closed below null node lo hi
  apart : ∀ {i i' j j' p : Nat} {qs qs' : List (Option Nat)} {b : β}, lo ≤ i → i < hi → lo ≤ i' →
    i' < hi → Out below null node i qs → Out below null node i' qs' → node p = some (.own b) →
      qs[j]? = some (some p) → qs'[j']? = some (some p) → i = i' ∧ j = j'

theorem whole (honce : Once node) (h : Listing below null node k ls ps k') :
    Whole below null node k k' where
  closed := h.closed
  apart {i i' j j' p qs qs' b} hk hk' hi hi' hout hout' hb hj hj' := by
    obtain ⟨origin, horigin⟩ := h.origins honce
    have h₁ : (some i, j) = origin p := horigin ⟨⟨b, hb⟩, hk, hk', qs, hout, hj⟩
    have h₂ : (some i', j') = origin p := horigin ⟨⟨b, hb⟩, hi, hi', qs', hout', hj'⟩
    have heq := h₁.trans h₂.symm
    simp only [Prod.mk.injEq, Option.some.injEq] at heq
    exact heq

/-- What an own link of a node leads to is listed behind the node. -/
theorem Out.ownAt_bounds (honce : Once node) {qs : List (Option Nat)} {j p : Nat} {b : β}
    (hclosed : Closed below null node lo hi) (hlo : lo ≤ i) (hhi : i < hi)
    (hout : Out below null node i qs) (hb : node p = some (.own b))
    (hj : qs[j]? = some (some p)) : i < p ∧ p < hi := by
  obtain ⟨l, k₁, hnode, hpre⟩ := id hout
  obtain ⟨qs', k₂, hpre', hle⟩ := hclosed i l hlo hhi hnode
  have hown : OwnAt below null node (i + 1) k₂ qs' none j p :=
    ⟨⟨b, hb⟩, hout.eq honce hnode hpre' ▸ hj⟩
  have := hpre'.ownAt_bounds honce hown
  omega

namespace Whole

theorem nil (k : Nat) : Whole below null node k k where
  closed _ _ hlo hhi := absurd hhi (Nat.not_lt.mpr hlo)
  apart hlo hhi := absurd hhi (Nat.not_lt.mpr hlo)

/-- A place without a node. -/
theorem gap (hnode : node k = none) : Whole below null node k (k + 1) where
  closed i l hlo hhi hi := by
    obtain rfl : i = k := by omega
    rw [hnode] at hi
    cases hi
  apart {i} _ _ _ _ _ _ _ hlo hhi _ _ hout := by
    obtain rfl : i = k := by omega
    obtain ⟨l, _, hi, -⟩ := hout
    rw [hnode] at hi
    cases hi

/-- One walk after the other. -/
theorem append {mid : Nat} (honce : Once node) (h : Whole below null node lo mid)
    (h' : Whole below null node mid hi) (hmid : mid ≤ hi) : Whole below null node lo hi where
  closed i l hlo hhi hi := by
    rcases Nat.lt_or_ge i mid with hlt | hge
    · obtain ⟨qs, k₁, hpre, hle⟩ := h.closed i l hlo hlt hi
      exact ⟨qs, k₁, hpre, Nat.le_trans hle hmid⟩
    · exact h'.closed i l hge hhi hi
  apart {i i' j j' p qs qs' b} hlo hhi hlo' hhi' hout hout' hb hj hj' := by
    rcases Nat.lt_or_ge i mid with hlt | hge <;> rcases Nat.lt_or_ge i' mid with hlt' | hge'
    · exact h.apart hlo hlt hlo' hlt' hout hout' hb hj hj'
    · have h₁ := hout.ownAt_bounds honce h.closed hlo hlt hb hj
      have h₂ := hout'.ownAt_bounds honce h'.closed hge' hhi' hb hj'
      omega
    · have h₁ := hout.ownAt_bounds honce h'.closed hge hhi hb hj
      have h₂ := hout'.ownAt_bounds honce h.closed hlo' hlt' hb hj'
      omega
    · exact h'.apart hge hhi hge' hhi' hout hout' hb hj hj'

/-- A link of a node that is listed leads to one that is. -/
theorem step (h : Whole below null node 0 hi) {l' : Link α β} (hi' : i < hi)
    (hnode : node i = some l) (hl : l' ∈ below l) (hne : l' ≠ .shared null) :
    ∃ p < hi, node p = some l' := by
  obtain ⟨qs, k₁, hpre, hle⟩ := h.closed i l (Nat.zero_le i) hi' hnode
  obtain ⟨q, hlead⟩ := hpre.leads_mem hl
  cases hlead with
  | null => exact absurd rfl hne
  | shared _ hp hnode => exact ⟨_, by omega, hnode⟩
  | own _ hp hnode => exact ⟨_, by omega, hnode⟩

/-- **What can be reached from a node that is listed is listed.** -/
theorem reached (h : Whole below null node 0 hi) {l' : Link α β} (hi' : i < hi)
    (hnode : node i = some l) (hreach : Relation.ReflTransGen (Steps below null) l l')
    (hne : l' ≠ .shared null) : ∃ p < hi, node p = some l' := by
  induction hreach with
  | refl => exact ⟨i, hi', hnode⟩
  | tail _ hstep ih =>
    obtain ⟨p, hp, hp'⟩ := ih hstep.1
    exact h.step hp hp' hstep.2 hne

end Whole

end Listing

end Srcinv.Lib
