import Srcinv.Analysis.Hold

/-!
# Blocks that hold a sibuf

Every user of a sibuf runs the block `held = sibuf_hold(b); ...; if (!held) sibuf_drop(b)`, and
blocks nest.  The code counts nothing: how deep a thread is in a sibuf is known only from the
`held` values on its stack, while `resfile_gc` looks at `users` alone.

* `hold_exact` — over every run of such blocks, a thread is in `users`, once, from its outermost
  hold of a sibuf to the matching drop, the sibuf stays mapped meanwhile and the memory in use
  stays below the maximum, exactly when every `sibuf_hold` finds its resfile open or under the
  working directory.
* `refused_hold_runs_unheld` — otherwise `sibuf_hold` returns -1, which the block takes for
  "held already".
-/

namespace Srcinv.Analysis

open Srcinv.Lib

/-! ## The blocks -/

/-- The src with the stack of each thread: the blocks it is in, innermost first, with what
    `sibuf_hold` returned there. -/
structure BlockSrc where
  src : LoadSrc
  held : Nat → List (Nat × Int)

/-- What a thread can do: a step of `sibuf_hold` or `resfile_gc`, or the end of its innermost
    block. -/
inductive BlockEvent where
  | load (e : LoadEvent)
  | leave (user : Nat)

/-- The stacks after a step: a block begins when `sibuf_hold` returns. -/
def enterBlock (held : Nat → List (Nat × Int)) : Option LoadRet → Nat → List (Nat × Int)
  | some (.hold user i h) => Function.update held user ((i, h) :: held user)
  | _ => held

def blockStep (E : LoadEnv) (st : BlockSrc) : BlockEvent → Option BlockSrc
  | .load (.drop _ _) => none
  | .load e => (loadStep E st.src e).map fun r => ⟨r.1, enterBlock st.held r.2⟩
  | .leave user =>
    match st.held user with
    | [] => none
    | (i, h) :: rest =>
      let held := Function.update st.held user rest
      if h = 0 then (loadNext E st.src (.drop user i)).map fun src => ⟨src, held⟩
      else if st.src.idle user then some ⟨st.src, held⟩
      else none

def BlockSrc.start (sibufs : List (Nat × Nat × Nat)) (opened : Nat → Bool) : BlockSrc :=
  ⟨.start sibufs opened, fun _ => []⟩

/-- The thread is in a block of the sibuf. -/
def BlockSrc.InBlock (st : BlockSrc) (user i : Nat) : Prop := i ∈ (st.held user).map Prod.fst

/-- What the blocks are for. -/
structure HoldLaw (E : LoadEnv) (st : BlockSrc) : Prop where
  /-- A thread is a user of exactly the sibufs it is in a block of. -/
  users : ∀ (i : Nat) (buf : LoadBuf), st.src.bufs[i]? = some buf →
    ∀ user, user ∈ buf.users ↔ st.InBlock user i
  /-- It occurs once. -/
  once : ∀ (i : Nat) (buf : LoadBuf), st.src.bufs[i]? = some buf → buf.users.Nodup
  /-- Nothing in use is unmapped. -/
  loaded : ∀ (i : Nat) (buf : LoadBuf), st.src.bufs[i]? = some buf →
    ∀ user, st.InBlock user i → buf.needUnload = true
  /-- The memory in use is bounded. -/
  room : st.src.sibufMemUsage ≤ E.sibufLoadedMax

/-- A `sibuf_hold` finds the resfile open, or under the working directory. -/
def FindsResfile (E : LoadEnv) (st : BlockSrc) : BlockEvent → Prop
  | .load (.hold user i env _) => st.src.sweep = none → st.src.idle user = true →
      ∀ buf, st.src.bufs[i]? = some buf →
        st.src.opened buf.rf = true ∨ env.covers (E.path buf.rf) = true
  | _ => True

/-! ## The stacks -/

/-- On a stack of blocks `held` is 0 in the outermost block of each sibuf only. -/
def Nested : List (Nat × Int) → Prop
  | [] => True
  | (i, h) :: rest => (h = 0 ↔ i ∉ rest.map Prod.fst) ∧ Nested rest

/-- Leaving a block that is not the outermost one leaves the thread in the same sibufs. -/
theorem Nested.mem_inner {i : Nat} {h : Int} {rest : List (Nat × Int)}
    (hn : Nested ((i, h) :: rest)) (hh : h ≠ 0) (j : Nat) :
    j ∈ ((i, h) :: rest).map Prod.fst ↔ j ∈ rest.map Prod.fst := by
  have hi : i ∈ rest.map Prod.fst := Classical.not_not.mp fun hni => hh (hn.1.mpr hni)
  rw [List.map_cons, List.mem_cons]
  constructor
  · rintro (rfl | hj)
    · exact hi
    · exact hj
  · exact Or.inr

/-- Leaving the outermost block of a sibuf leaves the thread in the other sibufs. -/
theorem Nested.mem_outer {i : Nat} {h : Int} {rest : List (Nat × Int)}
    (hn : Nested ((i, h) :: rest)) (hh : h = 0) (j : Nat) :
    j ∈ rest.map Prod.fst ↔ j ∈ ((i, h) :: rest).map Prod.fst ∧ j ≠ i := by
  have hi := hn.1.mp hh
  rw [List.map_cons, List.mem_cons]
  constructor
  · intro hj
    refine ⟨Or.inr hj, ?_⟩
    rintro rfl
    exact hi hj
  · rintro ⟨rfl | hj, hne⟩
    · exact absurd rfl hne
    · exact hj

/-! ## The users of a sibuf -/

theorem mem_sibufAddUser {users : List Nat} {user t : Nat} :
    t ∈ (sibufAddUser users user).1 ↔ t = user ∨ t ∈ users := by
  unfold sibufAddUser
  split
  · rename_i hmem
    constructor
    · exact Or.inr
    · rintro (rfl | ht)
      · exact hmem
      · exact ht
  · simp [or_comm]

theorem nodup_sibufAddUser {users : List Nat} (user : Nat) (h : users.Nodup) :
    (sibufAddUser users user).1.Nodup := by
  unfold sibufAddUser
  split
  · exact h
  · rename_i hmem
    exact h.append (List.nodup_singleton user) (by simpa using hmem)

/-- `sibuf_hold` returns 0 to a thread that was no user. -/
theorem sibufAddUser_held {users : List Nat} {user : Nat} :
    (sibufAddUser users user).2 = 0 ↔ user ∉ users := by
  unfold sibufAddUser
  split
  · rename_i hmem
    simp [hmem]
  · rename_i hmem
    simp [hmem]

/-! ## The invariant -/

/-- The law, with what the steps need to keep it. -/
structure HoldInv (E : LoadEnv) (st : BlockSrc) : Prop extends HoldLaw E st where
  nested : ∀ user, Nested (st.held user)
  /-- A sibuf in use belongs to an open resfile. -/
  opened : ∀ (i : Nat) (buf : LoadBuf), st.src.bufs[i]? = some buf → buf.users ≠ [] →
    st.src.opened buf.rf = true
  /-- So does one that a thread waits for. -/
  waiting : ∀ user i, st.src.pc user = .full i ∨ st.src.pc user = .again i →
    ∀ buf, st.src.bufs[i]? = some buf → st.src.opened buf.rf = true

variable {E : LoadEnv} {st st' : BlockSrc}

/-- An entry of the list of sibufs after one of them was replaced. -/
theorem getElem?_set_cases {bufs : List LoadBuf} {i j : Nat} {b' c : LoadBuf}
    (h : (bufs.set i b')[j]? = some c) : (j = i ∧ c = b') ∨ (j ≠ i ∧ bufs[j]? = some c) := by
  rw [List.getElem?_set] at h
  split at h
  · rename_i hij
    split at h
    · exact Or.inl ⟨hij.symm, (Option.some.inj h).symm⟩
    · cases h
  · rename_i hij
    exact Or.inr ⟨fun hji => hij hji.symm, h⟩

theorem fillBuf_cases {src : LoadSrc} {user i j : Nat} {buf c : LoadBuf}
    (h : (fillBuf src user i buf).1.bufs[j]? = some c) :
    (j = i ∧ c = { buf with needUnload := true, users := (sibufAddUser buf.users user).1 }) ∨
      (j ≠ i ∧ src.bufs[j]? = some c) :=
  getElem?_set_cases h

theorem totalLen_le_mmapSize (R : Rounding) (buf : LoadBuf) : buf.totalLen ≤ mmapSize R buf := by
  have hup := R.le_up (buf.loadAddr + buf.totalLen)
  have hdown := R.down_le buf.loadAddr
  unfold mmapSize
  omega

/-- A mapping that had room stays below the maximum. -/
theorem usage_le_of_hasRoom {src : LoadSrc} {buf : LoadBuf} (h : HasRoom E src buf) :
    src.sibufMemUsage + buf.totalLen ≤ E.sibufLoadedMax := by
  have hlen := totalLen_le_mmapSize E.R buf
  unfold HasRoom at h
  omega

/-- A step that changes neither sibufs nor blocks keeps the invariant. -/
theorem HoldInv.frame {src : LoadSrc} (hi : HoldInv E st) (hbufs : src.bufs = st.src.bufs)
    (husage : src.sibufMemUsage = st.src.sibufMemUsage)
    (hkeep : ∀ rf, st.src.opened rf = true → src.opened rf = true)
    (hwait : ∀ user i, src.pc user = .full i ∨ src.pc user = .again i →
      ∀ buf, st.src.bufs[i]? = some buf → src.opened buf.rf = true) :
    HoldInv E ⟨src, st.held⟩ where
  users i buf hb := hi.users i buf (hbufs ▸ hb)
  once i buf hb := hi.once i buf (hbufs ▸ hb)
  loaded i buf hb := hi.loaded i buf (hbufs ▸ hb)
  room := by
    have := hi.room
    show src.sibufMemUsage ≤ E.sibufLoadedMax
    omega
  nested := hi.nested
  opened i buf hb hne := hkeep _ (hi.opened i buf (hbufs ▸ hb) hne)
  waiting user i hpc buf hb := hwait user i hpc buf (hbufs ▸ hb)

/-- The thread that starts to wait has opened the resfile of its sibuf. -/
theorem waiting_update {opened : Nat → Bool} {user i : Nat} {buf : LoadBuf} (hi : HoldInv E st)
    (hbuf : st.src.bufs[i]? = some buf) (hopen : opened buf.rf = true)
    (hkeep : ∀ rf, st.src.opened rf = true → opened rf = true) (t j : Nat)
    (hpc : Function.update st.src.pc user (.full i) t = .full j ∨
      Function.update st.src.pc user (.full i) t = .again j)
    (b : LoadBuf) (hb : st.src.bufs[j]? = some b) : opened b.rf = true := by
  rw [Function.update_apply] at hpc
  split at hpc
  · obtain hpc | hpc := hpc
    · cases hpc
      rw [hbuf] at hb
      cases hb
      exact hopen
    · cases hpc
  · exact hkeep _ (hi.waiting t j hpc b hb)

/-- **A block begins.** -/
theorem holdInv_fill {user i : Nat} {buf : LoadBuf} {opened : Nat → Bool} {usage : Int}
    (hi : HoldInv E st) (hbuf : st.src.bufs[i]? = some buf) (hopen : opened buf.rf = true)
    (hkeep : ∀ rf, st.src.opened rf = true → opened rf = true)
    (hroom : usage ≤ E.sibufLoadedMax) :
    HoldInv E ⟨(fillBuf { st.src with opened := opened, sibufMemUsage := usage } user i buf).1,
      Function.update st.held user ((i, (sibufAddUser buf.users user).2) :: st.held user)⟩ where
  users j b hb t := by
    obtain ⟨rfl, rfl⟩ | ⟨hne, hb⟩ := fillBuf_cases hb
    · -- the thread joins the users of this sibuf and the stack gets its block
      rw [mem_sibufAddUser, hi.users _ _ hbuf]
      simp only [BlockSrc.InBlock, Function.update_apply]
      split
      · rename_i ht
        simp [ht]
      · rename_i ht
        simp [ht]
    · rw [hi.users j b hb]
      simp only [BlockSrc.InBlock, Function.update_apply]
      split
      · rename_i ht
        simp [ht, hne]
      · rfl
  once j b hb := by
    obtain ⟨rfl, rfl⟩ | ⟨-, hb⟩ := fillBuf_cases hb
    · exact nodup_sibufAddUser user (hi.once _ _ hbuf)
    · exact hi.once j b hb
  loaded j b hb t ht := by
    obtain ⟨rfl, rfl⟩ | ⟨hne, hb⟩ := fillBuf_cases hb
    · rfl
    · refine hi.loaded j b hb t ?_
      simp only [BlockSrc.InBlock, Function.update_apply] at ht ⊢
      split at ht
      · rename_i hu
        simpa [hu, hne] using ht
      · exact ht
  room := hroom
  nested t := by
    show Nested (Function.update st.held user _ t)
    rw [Function.update_apply]
    split
    · refine ⟨?_, hi.nested user⟩
      rw [sibufAddUser_held, hi.users i buf hbuf]
      rfl
    · exact hi.nested t
  opened j b hb hne := by
    obtain ⟨rfl, rfl⟩ | ⟨-, hb⟩ := fillBuf_cases hb
    · exact hopen
    · exact hkeep _ (hi.opened j b hb hne)
  waiting t j hpc b hb := by
    obtain ⟨rfl, rfl⟩ | ⟨hne, hb⟩ := fillBuf_cases hb
    · exact hopen
    · refine hkeep _ (hi.waiting t j ?_ b hb)
      have hpc' : Function.update st.src.pc user .out t = .full j ∨
        Function.update st.src.pc user .out t = .again j := hpc
      rw [Function.update_apply] at hpc'
      split at hpc'
      · obtain hpc' | hpc' := hpc' <;> cases hpc'
      · exact hpc'

/-- A sibuf that nobody uses is unmapped. -/
theorem holdInv_unload {s : Sweep} {buf : LoadBuf} (hi : HoldInv E st)
    (hbuf : st.src.bufs[s.pos]? = some buf) (hfree : buf.users = []) :
    HoldInv E ⟨{ st.src with
      bufs := st.src.bufs.set s.pos { buf with needUnload := false, users := [] }
      sibufMemUsage := st.src.sibufMemUsage - buf.totalLen
      sweep := some { s with pos := s.pos + 1, target := true } }, st.held⟩ where
  users j b hb t := by
    obtain ⟨rfl, rfl⟩ | ⟨-, hb⟩ := getElem?_set_cases hb
    · have hlaw := hi.users _ _ hbuf t
      rw [hfree] at hlaw
      exact hlaw
    · exact hi.users j b hb t
  once j b hb := by
    obtain ⟨rfl, rfl⟩ | ⟨-, hb⟩ := getElem?_set_cases hb
    · exact List.nodup_nil
    · exact hi.once j b hb
  loaded j b hb t ht := by
    obtain ⟨rfl, rfl⟩ | ⟨-, hb⟩ := getElem?_set_cases hb
    · have hin := (hi.users _ _ hbuf t).mpr ht
      rw [hfree] at hin
      cases hin
    · exact hi.loaded j b hb t ht
  room := by
    have hroom := hi.room
    show st.src.sibufMemUsage - (buf.totalLen : Int) ≤ E.sibufLoadedMax
    omega
  nested := hi.nested
  opened j b hb hne := by
    obtain ⟨rfl, rfl⟩ | ⟨-, hb⟩ := getElem?_set_cases hb
    · exact absurd rfl hne
    · exact hi.opened j b hb hne
  waiting t j hpc b hb := by
    obtain ⟨rfl, rfl⟩ | ⟨-, hb⟩ := getElem?_set_cases hb
    · exact hi.waiting t s.pos hpc buf hbuf
    · exact hi.waiting t j hpc b hb

/-- **An outermost block ends**: the thread is dropped. -/
theorem holdInv_drop {user i : Nat} {h : Int} {rest : List (Nat × Int)} {buf : LoadBuf}
    (hi : HoldInv E st) (hheld : st.held user = (i, h) :: rest) (hh : h = 0)
    (hbuf : st.src.bufs[i]? = some buf) :
    HoldInv E ⟨{ st.src with
      bufs := st.src.bufs.set i { buf with users := sibufDelUser buf.users user } },
      Function.update st.held user rest⟩ where
  users j b hb t := by
    have hnested := hheld ▸ hi.nested user
    simp only [BlockSrc.InBlock, Function.update_apply]
    obtain ⟨rfl, rfl⟩ | ⟨hne, hb⟩ := getElem?_set_cases hb
    · have hlaw := hi.users _ _ hbuf t
      rw [sibufDelUser, (hi.once _ _ hbuf).mem_erase_iff, hlaw, BlockSrc.InBlock]
      split
      · rename_i ht
        have hnot := hnested.1.mp hh
        simp [ht, hnot]
      · rename_i ht
        simp [ht]
    · rw [hi.users j b hb t, BlockSrc.InBlock]
      split
      · rename_i ht
        rw [ht, hheld, hnested.mem_outer hh]
        simp [hne]
      · rfl
  once j b hb := by
    obtain ⟨rfl, rfl⟩ | ⟨-, hb⟩ := getElem?_set_cases hb
    · exact (hi.once _ _ hbuf).erase user
    · exact hi.once j b hb
  loaded j b hb t ht := by
    have hwas : st.InBlock t j := by
      simp only [BlockSrc.InBlock, Function.update_apply] at ht ⊢
      split at ht
      · rename_i hu
        rw [hu, hheld]
        exact List.mem_cons_of_mem _ ht
      · exact ht
    obtain ⟨rfl, rfl⟩ | ⟨-, hb⟩ := getElem?_set_cases hb
    · exact hi.loaded _ buf hbuf t hwas
    · exact hi.loaded j b hb t hwas
  room := hi.room
  nested t := by
    show Nested (Function.update st.held user rest t)
    rw [Function.update_apply]
    split
    · exact (hheld ▸ hi.nested user).2
    · exact hi.nested t
  opened j b hb hne := by
    obtain ⟨rfl, rfl⟩ | ⟨-, hb⟩ := getElem?_set_cases hb
    · refine hi.opened _ buf hbuf fun hnil => hne ?_
      simp [sibufDelUser, hnil]
    · exact hi.opened j b hb hne
  waiting t j hpc b hb := by
    obtain ⟨rfl, rfl⟩ | ⟨-, hb⟩ := getElem?_set_cases hb
    · exact hi.waiting t _ hpc buf hbuf
    · exact hi.waiting t j hpc b hb

/-- An inner block ends: the thread stays a user. -/
theorem holdInv_inner {user i : Nat} {h : Int} {rest : List (Nat × Int)}
    (hi : HoldInv E st) (hheld : st.held user = (i, h) :: rest) (hh : h ≠ 0) :
    HoldInv E ⟨st.src, Function.update st.held user rest⟩ := by
  have hnested : Nested ((i, h) :: rest) := hheld ▸ hi.nested user
  have hin : ∀ t j, BlockSrc.InBlock ⟨st.src, Function.update st.held user rest⟩ t j ↔
      st.InBlock t j := by
    intro t j
    simp only [BlockSrc.InBlock, Function.update_apply]
    split
    · rename_i ht
      rw [ht, hheld, hnested.mem_inner hh]
    · rfl
  refine ⟨⟨?_, hi.once, ?_, hi.room⟩, ?_, hi.opened, hi.waiting⟩
  · intro j b hb t
    rw [hin, hi.users j b hb t]
  · intro j b hb t ht
    exact hi.loaded j b hb t ((hin t j).mp ht)
  · intro t
    show Nested (Function.update st.held user rest t)
    rw [Function.update_apply]
    split
    · exact hnested.2
    · exact hi.nested t

/-- The end of `resfile_gc` only moves its thread on to the loop it came from. -/
theorem waiting_gcEnd (hi : HoldInv E st) (s : Sweep) (t i : Nat)
    (hpc : (gcEnd st.src s).pc t = .full i ∨ (gcEnd st.src s).pc t = .again i)
    (b : LoadBuf) (hb : st.src.bufs[i]? = some b) : st.src.opened b.rf = true := by
  cases hs : st.src.pc s.thread with
  | full j =>
    simp only [gcEnd, hs, Function.update_apply] at hpc
    split at hpc
    · obtain hpc | hpc := hpc
      · cases hpc
      · cases hpc
        exact hi.waiting s.thread _ (Or.inl hs) b hb
    · exact hi.waiting t i hpc b hb
  | again j =>
    simp only [gcEnd, hs] at hpc
    exact hi.waiting t i hpc b hb
  | out =>
    simp only [gcEnd, hs] at hpc
    exact hi.waiting t i hpc b hb

/-- A step of `sibuf_hold` or `resfile_gc` keeps the invariant unless the resfile is refused. -/
theorem holdInv_load {e : LoadEvent} {src : LoadSrc} {r : Option LoadRet} (hi : HoldInv E st)
    (hg : FindsResfile E st (.load e)) (hdrop : ∀ user i, e ≠ .drop user i)
    (h : loadStep E st.src e = some (src, r)) : HoldInv E ⟨src, enterBlock st.held r⟩ := by
  have hstep := h
  have hm := loadStep_move h
  cases hm with
  | refused hbuf hclosed hdir =>
    -- the guard says that the resfile is open or can be opened
    simp only [loadStep] at hstep
    split at hstep
    · cases hstep
    · rename_i hbusy
      simp only [Bool.or_eq_true, Bool.not_eq_true', not_or, Bool.not_eq_false,
        Option.isSome_iff_ne_none, not_not] at hbusy
      obtain hopen | hcov := hg hbusy.1 hbusy.2 _ hbuf
      · rw [hclosed] at hopen
        cases hopen
      · rw [hdir] at hcov
        cases hcov
  | attached hbuf hopen hkeep hloaded => exact holdInv_fill hi hbuf hopen hkeep hi.room
  | mapped hbuf hopen hkeep hunloaded hroom =>
    exact holdInv_fill hi hbuf hopen hkeep (usage_le_of_hasRoom hroom)
  | remapped hsweep hpc hbuf hroom =>
    exact holdInv_fill hi hbuf (hi.waiting _ _ (Or.inr hpc) _ hbuf) (fun _ h => h)
      (usage_le_of_hasRoom hroom)
  | waits hbuf hopen hkeep =>
    exact hi.frame rfl rfl hkeep fun t j hpc b hb => waiting_update hi hbuf hopen hkeep t j hpc b hb
  | waitsAgain hpc =>
    refine hi.frame rfl rfl (fun _ h => h) fun t j hpc' b hb => ?_
    have hpc'' : Function.update st.src.pc _ _ t = _ ∨ Function.update st.src.pc _ _ t = _ := hpc'
    rw [Function.update_apply] at hpc''
    split at hpc''
    · obtain hpc'' | hpc'' := hpc''
      · cases hpc''
        exact hi.waiting _ _ (Or.inr hpc) b hb
      · cases hpc''
    · exact hi.waiting t j hpc'' b hb
  | drops => exact absurd rfl (hdrop _ _)
  | sweeps => exact hi.frame rfl rfl (fun _ h => h) hi.waiting
  | skips => exact hi.frame rfl rfl (fun _ h => h) hi.waiting
  | unloads hs hbuf hloaded hfree => exact holdInv_unload hi hbuf hfree
  | ends => exact hi.frame rfl rfl (fun _ h => h) (waiting_gcEnd hi _)

/-- **One step keeps the invariant.** -/
theorem holdInv_step {e : BlockEvent} (hi : HoldInv E st) (hg : FindsResfile E st e)
    (h : blockStep E st e = some st') : HoldInv E st' := by
  unfold blockStep at h
  split at h
  · cases h
  · rename_i e hdrop
    obtain ⟨⟨src, r⟩, hstep, rfl⟩ := Option.map_eq_some_iff.mp h
    exact holdInv_load hi hg hdrop hstep
  · rename_i user
    split at h
    · cases h
    · rename_i i held rest hheld
      simp only at h
      split at h
      · rename_i hh
        obtain ⟨src, hnext, rfl⟩ := Option.map_eq_some_iff.mp h
        obtain ⟨r, hm⟩ := loadNext_move hnext
        cases hm with
        | drops hbuf => exact holdInv_drop hi hheld hh hbuf
      · rename_i hh
        split at h
        · cases h
          exact holdInv_inner hi hheld hh
        · cases h

/-- **A refused hold begins a block of a thread that is no user.** -/
theorem hold_breaks {e : BlockEvent} (hi : HoldInv E st) (hng : ¬ FindsResfile E st e) :
    ∃ st', blockStep E st e = some st' ∧ ¬ HoldLaw E st' := by
  unfold FindsResfile at hng
  split at hng
  · rename_i user i env m
    simp only [not_forall, not_or, Bool.not_eq_true] at hng
    obtain ⟨hsweep, hidle, buf, hbuf, hclosed, hdir⟩ := hng
    have hstep : loadStep E st.src (.hold user i env m) =
        some (st.src, some (.hold user i (-1))) := by
      simp [loadStep, hsweep, hidle, hbuf, resfileLoad, openFd, hclosed, hdir]
    refine ⟨⟨st.src, enterBlock st.held (some (.hold user i (-1)))⟩, ?_, fun hlaw => ?_⟩
    · simp [blockStep, hstep]
    · -- nobody uses a sibuf of a closed resfile
      have hnone : buf.users = [] := Classical.byContradiction fun hne => by
        have hopen := hi.opened i buf hbuf hne
        rw [hclosed] at hopen
        cases hopen
      have hin := (hlaw.users i buf hbuf user).mpr
        (by simp [BlockSrc.InBlock, enterBlock])
      rw [hnone] at hin
      cases hin
  · exact absurd trivial hng

theorem holdInv_start (E : LoadEnv) (sibufs : List (Nat × Nat × Nat)) (opened : Nat → Bool) :
    HoldInv E (.start sibufs opened) := by
  have hfresh : ∀ (i : Nat) (buf : LoadBuf),
      (BlockSrc.start sibufs opened).src.bufs[i]? = some buf → buf.users = [] := by
    intro i buf hbuf
    simp only [BlockSrc.start, LoadSrc.start, List.getElem?_map, Option.map_eq_some_iff] at hbuf
    obtain ⟨_, _, rfl⟩ := hbuf
    rfl
  refine ⟨⟨?_, ?_, ?_, ?_⟩, ?_, ?_, ?_⟩
  · intro i buf hbuf user
    rw [hfresh i buf hbuf]
    simp [BlockSrc.InBlock, BlockSrc.start]
  · intro i buf hbuf
    rw [hfresh i buf hbuf]
    exact List.nodup_nil
  · intro i buf hbuf user hin
    cases hin
  · exact Int.natCast_nonneg _
  · intro user
    exact trivial
  · intro i buf hbuf hne
    exact absurd (hfresh i buf hbuf) hne
  · rintro user i (hpc | hpc) <;> cases hpc

/-- **Blocks keep their sibufs exactly when no `sibuf_hold` is refused.** -/
theorem hold_exact (E : LoadEnv) (sibufs : List (Nat × Nat × Nat)) (opened : Nat → Bool)
    (es : List BlockEvent) :
    Visits (blockStep E) (HoldLaw E) (.start sibufs opened) es ↔
      Along (blockStep E) (FindsResfile E) (.start sibufs opened) es :=
  visits_iff_along (fun _ _ _ hi hg h => holdInv_step hi hg h) (fun _ hi => hi.toHoldLaw)
    (fun _ _ hi hng => hold_breaks hi hng) (holdInv_start E sibufs opened)

/-- A hold from another working directory: the thread runs its block without being a user. -/
theorem refused_hold_runs_unheld :
    ¬ Visits (blockStep tightEnv) (HoldLaw tightEnv)
      (.start [(0, 0x1000000000, 0x1000)] fun _ => false)
      [.load (.hold 1 0 ⟨some [47, 116], true⟩ .ok)] := by
  intro hv
  have hlaw := visits_iff_exec.mp hv _ [] _ (List.append_nil _).symm rfl
  have hin := (hlaw.users 0 ⟨0, 0x1000000000, 0x1000, false, []⟩ rfl 1).mpr List.mem_cons_self
  cases hin

end Srcinv.Analysis
