import Srcinv.Lib.Run
import Srcinv.Src.Image

/-!
# The blocks of the src image

* `blocks_exact` — over every order of blocks and loads, the blocks given out since the last load
  are apart, aligned and inside the region, exactly when no block is asked for right after a load
  of a file whose length is not a multiple of 8.
* `block_after_cut_file` — the first block after a file that was cut off is not aligned.
-/

namespace Srcinv.Src

open Srcinv.Lib

/-- The length of a block. -/
abbrev BlockLen := { len : Nat // 1 ≤ len ∧ len ≤ SRC_BUF_BLKSZ }

/-- The region, with what the code does not keep: the blocks given out since the last load, as
    start and length, and the length of the file that was loaded after the last block. -/
structure Blocks where
  buf : SrcBuf
  blocks : List (Nat × Nat)
  loadedLen : Nat

inductive BlockEvent where
  | get (len : BlockLen) (mmapOk : Bool)
  | load (id : List UInt8) (env : LoadEnv)

variable (C : RoundUp) (L : SrcLayout)

/-- A block is given out, or a load succeeds. -/
def blockStep (s : Blocks) : BlockEvent → Option Blocks
  | .get len mmapOk => (srcBufGet C s.buf len mmapOk).map fun (buf, ret) =>
      ⟨buf, (ret, len) :: s.blocks, 0⟩
  | .load id env =>
    match doLoadSrcfile C L s.buf id env with
    | some (buf, 0) => some ⟨buf, [],
        match (doFlushOutfile L s.buf env.flush).files id with
        | none => s.loadedLen
        | some file => file.length⟩
    | _ => none

/-! ## Blocks that are apart -/

/-- The blocks are apart, aligned and inside. -/
structure BlocksRight (s : Blocks) : Prop where
  apart : s.blocks.Pairwise (Apart Prod.fst Prod.snd)
  aligned : ∀ b ∈ s.blocks, 8 ∣ b.1
  inside : ∀ b ∈ s.blocks, SRC_BUF_START ≤ b.1 ∧
    b.1 + b.2 ≤ SRC_BUF_START + s.buf.bufTotalSize ∧ b.1 + b.2 ≤ SRC_BUF_END

/-- The second check of `src_buf_get` does not fire. -/
def SecondCheckSilent (s : Blocks) : BlockEvent → Prop
  | .get len mmapOk => ∀ buf, makeRoom C s.buf len mmapOk = some buf →
      len + buf.bufCur ≤ SRC_BUF_START + buf.bufTotalSize
  | .load .. => True

/-- A block that there is room for does not follow a file whose length is no multiple of 8. -/
def WholeWords (s : Blocks) : BlockEvent → Prop
  | .get len mmapOk => (makeRoom C s.buf len mmapOk).isSome → 8 ∣ s.loadedLen
  | .load .. => True

/-! ## The invariant -/

/-- The region is in order and the blocks end before the cursor. -/
structure BlocksInv (s : Blocks) : Prop extends BlocksRight s where
  region : RegionInv s.buf
  before : ∀ b ∈ s.blocks, b.1 + b.2 ≤ s.buf.bufCur
  cursor : 8 ∣ s.buf.bufCur ↔ 8 ∣ s.loadedLen

variable {C L} {s s' : Blocks}

/-- There is room exactly where the block is given out. -/
theorem srcBufGet_eq (hi : RegionInv s.buf) (len : BlockLen) (mmapOk : Bool) :
    srcBufGet C s.buf len mmapOk = (makeRoom C s.buf len mmapOk).map fun buf =>
      ({ buf with bufCur := C.up (buf.bufCur + len) 8, srcModified := true }, buf.bufCur) := by
  unfold srcBufGet
  cases hroom : makeRoom C s.buf len mmapOk with
  | none => rfl
  | some buf =>
    obtain ⟨-, hcur, -, -, hfits⟩ := hi.makeRoom hroom
    have hle := hfits len.2.2
    rw [← hcur] at hle
    simp only [if_neg (Nat.not_lt.mpr hle), Option.map_some]

/-- **A block at a whole word keeps the invariant.** -/
theorem BlocksInv.get (hi : BlocksInv s) {len : BlockLen} {mmapOk : Bool}
    (hwhole : 8 ∣ s.loadedLen) (h : blockStep C L s (.get len mmapOk) = some s') :
    BlocksInv s' := by
  obtain ⟨⟨buf, ret⟩, hget, rfl⟩ := Option.map_eq_some_iff.mp h
  obtain ⟨hregion, rfl, hcur, -, htotal, hword⟩ := hi.region.get hget
  have hend := hregion.le_end
  have hle := hregion.cur_le
  have hstart := hi.region.start_le
  refine ⟨⟨?_, ?_, ?_⟩, hregion, ?_, ?_⟩
  · refine List.pairwise_cons.mpr ⟨fun b hb => ?_, hi.apart⟩
    exact Or.inr (hi.before b hb)
  · intro b hb
    obtain rfl | hb := List.mem_cons.mp hb
    · exact hi.cursor.mpr hwhole
    · exact hi.aligned b hb
  · intro b hb
    obtain rfl | hb := List.mem_cons.mp hb
    · show _ ≤ s.buf.bufCur ∧ s.buf.bufCur + len ≤ _ + buf.bufTotalSize ∧ _
      omega
    · have hin := hi.inside b hb
      show _ ∧ _ ≤ _ + buf.bufTotalSize ∧ _
      omega
  · intro b hb
    obtain rfl | hb := List.mem_cons.mp hb
    · exact hcur
    · have hbefore := hi.before b hb
      show _ ≤ buf.bufCur
      omega
  · exact ⟨fun _ => Nat.dvd_zero 8, fun _ => hword⟩

/-- **A load that succeeds starts over.** -/
theorem BlocksInv.load (hi : BlocksInv s) {id : List UInt8} {env : LoadEnv}
    (h : blockStep C L s (.load id env) = some s') : BlocksInv s' := by
  simp only [blockStep] at h
  split at h
  · rename_i buf hload
    cases h
    refine ⟨⟨List.Pairwise.nil, ?_, ?_⟩, hi.region.load hload, ?_, ?_⟩
    · intro b hb
      cases hb
    · intro b hb
      cases hb
    · intro b hb
      cases hb
    · obtain ⟨hnone, rfl⟩ | ⟨file, s₁, hfile, -, -, rfl⟩ := load_cases hload
      · rw [hnone]
        obtain ⟨files, heq⟩ := flush_same L s.buf env.flush
        rw [heq]
        exact hi.cursor
      · -- the region starts at a multiple of 8
        rw [hfile]
        exact (Nat.dvd_add_right (by decide : 8 ∣ SRC_BUF_START))
  · cases h

theorem blocksInv_step {e : BlockEvent} (hi : BlocksInv s) (hg : WholeWords C s e)
    (h : blockStep C L s e = some s') : BlocksInv s' := by
  cases e with
  | get len mmapOk =>
    refine hi.get (hg ?_) h
    obtain ⟨_, hget, -⟩ := Option.map_eq_some_iff.mp h
    rw [srcBufGet_eq hi.region] at hget
    obtain ⟨buf, hroom, -⟩ := Option.map_eq_some_iff.mp hget
    rw [hroom]
    rfl
  | load id env => exact hi.load h

theorem secondCheck_silent (hi : BlocksInv s) (e : BlockEvent) : SecondCheckSilent C s e := by
  cases e with
  | get len mmapOk =>
    intro buf hroom
    obtain ⟨-, hcur, -, -, hfits⟩ := hi.region.makeRoom hroom
    rw [hcur]
    exact hfits len.2.2
  | load id env => trivial

/-- A block after any other file is not aligned. -/
theorem blocks_break (hi : BlocksInv s) {e : BlockEvent} (hng : ¬ WholeWords C s e) :
    ∃ s', blockStep C L s e = some s' ∧ ¬ BlocksRight s' := by
  cases e with
  | get len mmapOk =>
    simp only [WholeWords, Classical.not_imp] at hng
    obtain ⟨hroom, hword⟩ := hng
    obtain ⟨buf, hbuf⟩ := Option.isSome_iff_exists.mp hroom
    refine ⟨_, by rw [blockStep, srcBufGet_eq hi.region, hbuf]; rfl, fun hr => hword ?_⟩
    rw [← hi.cursor]
    have haligned := hr.aligned _ List.mem_cons_self
    obtain ⟨-, hsame, -⟩ := hi.region.makeRoom hbuf
    rw [← hsame]
    exact haligned
  | load id env => exact absurd trivial hng

/-- The region before the first block. -/
def Blocks.setup (files : List UInt8 → Option (List UInt8)) : Blocks := ⟨srcSetup files, [], 0⟩

theorem blocksInv_setup (files : List UInt8 → Option (List UInt8)) :
    BlocksInv (.setup files) := by
  refine ⟨⟨List.Pairwise.nil, ?_, ?_⟩, regionInv_setup files, ?_, ?_⟩
  · intro b hb
    cases hb
  · intro b hb
    cases hb
  · intro b hb
    cases hb
  · exact ⟨fun _ => Nat.dvd_zero 8, fun _ => (by decide : 8 ∣ SRC_BUF_START)⟩

/-- **Whatever files there are, over every order of blocks and loads, the blocks given out since
    the last load are apart, aligned and inside and the second check is silent, exactly when no
    block follows the load of a file whose length is no multiple of 8.** -/
theorem blocks_exact (C : RoundUp) (L : SrcLayout) (files : List UInt8 → Option (List UInt8))
    (es : List BlockEvent) :
    (Visits (blockStep C L) BlocksRight (.setup files) es ∧
      Along (blockStep C L) (SecondCheckSilent C) (.setup files) es) ↔
      Along (blockStep C L) (WholeWords C) (.setup files) es :=
  visits_along_iff (fun _ _ _ hi hg h => blocksInv_step hi hg h) (fun _ hi => hi.toBlocksRight)
    (fun _ e hi _ => secondCheck_silent hi e) (fun _ _ hi hng _ => blocks_break hi hng)
    (blocksInv_setup files)

/-- The file of the id `a` is cut off in the middle of the block behind `struct src`, as an
    interrupted write leaves it. -/
def cutFile : List UInt8 → Option (List UInt8) := fun id =>
  if id = [97] then some (List.replicate 41 0) else none

/-- The block after it is not aligned. -/
theorem block_after_cut_file :
    ¬ (Visits (blockStep .div bareLayout) BlocksRight (.setup cutFile)
        [.load [97] .ok, .get ⟨8, by decide⟩ true] ∧
      Along (blockStep .div bareLayout) (SecondCheckSilent .div) (.setup cutFile)
        [.load [97] .ok, .get ⟨8, by decide⟩ true]) := by
  rintro ⟨⟨-, hv⟩, -⟩
  have hright := ((hv _ rfl).2 _ rfl).head
  exact absurd (hright.aligned _ List.mem_cons_self) (by decide)

end Srcinv.Src
