import Srcinv.Lib.ByteNum
import Srcinv.Analysis.DsTree
import Srcinv.Analysis.FunctionDetail
import Mathlib.Order.Interval.Finset.Nat
import Mathlib.Data.Nat.Nth

/-!
# The code paths of an asm function (`analysis/gcc/asm.cc`)

`get_func_detail` goes twice over the instructions of a function.  First it marks where code paths
start: at the function, behind each conditional jump, and at the targets of the jumps.  Then it
gives the jumps to the code paths, one after the other.

The instruction decoder, with its type `insn_byte_t`, and the bitmap of clib are not in the
repository.  An access beyond an array is `none`.

* `getFuncDetail` — both loops and what is between them.
* `AsmFunc.JumpRight` — a jump ends its code path as it should.
* `AsmFunc.JumpMet` — where it does.
-/

namespace Srcinv.Analysis

open Srcinv.Lib

/-! ## Instructions -/

/-- `struct insn`: the bytes of the opcode and of the immediate. -/
structure Insn where
  length : Nat
  opcode : List Nat
  immediate : List Nat
  deriving DecidableEq, Repr

/-- The bitmap of clib.  What a bitmap holds is said by `size` and `bit`. -/
structure ClibBitmap where
  Bm : Type
  clibBitmapCreate : Nat → Bm
  /-- The bitmap after it, and whether the bit was set. -/
  clibBitmapSet : Bm → Nat → Bm × Bool
  /-- `none` where the code gets -1. -/
  clibBitmapNonzero : Bm → Nat → Option Nat
  size : Bm → Nat
  bit : Bm → Nat → Bool
  size_create : ∀ n, size (clibBitmapCreate n) = n
  bit_create : ∀ n i, bit (clibBitmapCreate n) i = false
  size_set : ∀ bm i, size (clibBitmapSet bm i).1 = size bm
  bit_set : ∀ bm i j, i < size bm → bit (clibBitmapSet bm i).1 j = (decide (j = i) || bit bm j)
  old_set : ∀ bm i, i < size bm → (clibBitmapSet bm i).2 = bit bm i
  /-- The first bit that is set from `start` on. -/
  nonzero_some : ∀ bm start i, clibBitmapNonzero bm start = some i →
    start ≤ i ∧ bit bm i = true ∧ ∀ j, start ≤ j → j < i → bit bm j = false
  nonzero_none : ∀ bm start, clibBitmapNonzero bm start = none →
    ∀ i, start ≤ i → i < size bm → bit bm i = false

/-- What is not in the repository: the bitmap, and whether `insn_byte_t` has a sign. -/
structure AsmLibs extends ClibBitmap where
  byteSigned : Bool

variable (D : AsmLibs)

/-! `enum jxx_1` and `enum jxx_2`; the codes between are those of the other jumps. -/

def JO_OPC0 : Nat := 0x70
def JG_OPC0 : Nat := 0x7f
def JCXZ_OPC : Nat := 0xe3
def TWO_OPC : Nat := 0x0f
def JO_OPC1 : Nat := 0x80
def JG_OPC1 : Nat := 0x8f

/-- The bytes of the opcode of a conditional jump. -/
def jmpOpcs (insn : Insn) : Option Nat :=
  let opc0 := insn.opcode.getD 0 0
  let opc1 := insn.opcode.getD 1 0
  if insn.opcode.length = 1 ∧ (opc0 = JCXZ_OPC ∨ opc0 ≤ JG_OPC0 ∧ opc0 ≥ JO_OPC0) then some 1
  else if insn.opcode.length = 2 ∧ opc0 = TWO_OPC ∧ (opc1 ≤ JG_OPC1 ∧ opc1 ≥ JO_OPC1) then some 2
  else none

/-- `offset`, where a single byte has a sign or not. -/
def jmpOffset (signed : Bool) (insn : Insn) (opcs : Nat) : Int :=
  let byte := bytesInt signed 8 [insn.immediate.getD 0 0]
  match opcs with
  | 1 => byte
  | _ =>
    match insn.immediate.length with
    | 1 => byte
    | 2 => bytesInt true 16 insn.immediate
    | 4 => bytesInt true 32 insn.immediate
    | _ => 0

/-- `calc_addr_jmp`: the addresses of the next instruction and of the target. -/
def calcAddrJmp (addr : Nat) (insn : Insn) (opcs : Nat) : Nat × Nat :=
  let next := u64 (addr + insn.length)
  (next, u64 (next + jmpOffset D.byteSigned insn opcs))

/-- A function: the decoded instructions from `fn->node` on, in the address space. -/
structure AsmFunc where
  addr : Nat
  size : Nat
  insns : List Insn
  length_pos : ∀ insn ∈ insns, 0 < insn.length
  fits : ∀ insn ∈ insns, addr + size + insn.length < 2 ^ 64

/-! ## The first loop -/

/-- `bm` and `entries`. -/
structure Leaders (D : AsmLibs) where
  bm : D.Bm
  entries : Nat

namespace AsmFunc

variable (f : AsmFunc)

/-- The address is in the function, behind its start. -/
def Reached (a : Nat) : Prop := f.addr < a ∧ a < f.addr + f.size

instance (a : Nat) : Decidable (f.Reached a) := by
  unfold Reached
  infer_instance

/-- The code path at an address is counted, unless its bit was set. -/
def setLeader (st : Leaders D) (a : Nat) : Leaders D :=
  if f.Reached a then
    let (bm, old) := D.clibBitmapSet st.bm (a - f.addr)
    ⟨bm, if old then st.entries else st.entries + 1⟩
  else st

/-- The first loop, from the offset `i` on. -/
def leaderLoop : List Insn → Nat → Leaders D → Leaders D
  | [], _, st => st
  | insn :: insns, i, st =>
    if i < f.size then
      match jmpOpcs insn with
      | none => leaderLoop insns (i + insn.length) st
      | some opcs =>
        let (next, jmp) := calcAddrJmp D (f.addr + i) insn opcs
        leaderLoop insns (i + insn.length) (f.setLeader D (f.setLeader D st next) jmp)
    else st

/-- The bitmap and `entries` before the first loop. -/
def leaderStart : Leaders D := ⟨(D.clibBitmapSet (D.clibBitmapCreate f.size) 0).1, 1⟩

/-- The loop that makes the code paths. -/
def newCps (bm : D.Bm) : Nat → Nat → Option (List CodePath)
  | 0, _ => some []
  | entries + 1, start =>
    match D.clibBitmapNonzero bm start with
    | none => none
    | some start =>
      (newCps bm entries (start + 1)).map
        ({ codePathNew 0 with cp := some (f.addr + start) } :: ·)

/-! ## The second loop -/

/-- The loop over the code paths for the one at an address. -/
def searchCp (cps : List CodePath) (a : Nat) : Option Nat :=
  (List.range cps.length).foldl
    (fun res k => if cps[k]?.bind CodePath.cp = some a then some k else res) none

/-- A write to `cps[i]`. -/
def writeCp (cps : List CodePath) (i : Nat) (g : CodePath → CodePath) : Option (List CodePath) :=
  if i < cps.length then some (cps.modify i g) else none

/-- One jump of the second loop. -/
def connectJump (cps : List CodePath) (cpIdx insnAddr next jmp : Nat) : Option (List CodePath) := do
  let cps ← if f.Reached next then
      if cpIdx + 1 < cps.length then
        writeCp cps cpIdx fun cp => { cp with next := cp.next.set 0 (.path (cpIdx + 1)) }
      else none
    else some cps
  let cps ← if f.Reached jmp then
      match searchCp cps jmp with
      | none => some cps
      | some k => writeCp cps cpIdx fun cp => { cp with next := cp.next.set 1 (.path k) }
    else some cps
  writeCp cps cpIdx fun cp => { cp with condHead := some insnAddr }

/-- The second loop, from the offset `i` on: `cps`, `cp_idx` and `prev_insn_addr`. -/
def connectLoop : List Insn → Nat → List CodePath × Nat × Nat → Option (List CodePath × Nat × Nat)
  | [], _, st => some st
  | insn :: insns, i, (cps, cpIdx, prev) =>
    if i < f.size then
      match jmpOpcs insn with
      | none => connectLoop insns (i + insn.length) (cps, cpIdx, f.addr + i)
      | some opcs =>
        let (next, jmp) := calcAddrJmp D (f.addr + i) insn opcs
        match f.connectJump cps cpIdx (f.addr + i) next jmp with
        | none => none
        | some cps => connectLoop insns (i + insn.length) (cps, cpIdx + 1, f.addr + i)
    else some (cps, cpIdx, prev)

end AsmFunc

/-- `get_func_detail`: `cps`. -/
def getFuncDetail (f : AsmFunc) : Option (List CodePath) :=
  if f.size = 0 then some []
  else do
    let st := f.leaderLoop D f.insns 0 (f.leaderStart D)
    let cps ← f.newCps D st.bm st.entries 0
    let (cps, cpIdx, prev) ← f.connectLoop D f.insns 0 (cps, 0, f.addr)
    AsmFunc.writeCp cps cpIdx fun cp => { cp with condHead := some prev }

/-! ## What a jump should be given -/

/-- A conditional jump: its offset, the offset behind it, the target as `calc_addr_jmp` gives it,
    and the target, whose displacement has a sign. -/
structure Jump where
  pos : Nat
  stop : Nat
  jmp : Nat
  target : Nat
  deriving DecidableEq, Repr

namespace AsmFunc

variable (f : AsmFunc)

/-- The conditional jumps from an offset on. -/
def jumpsFrom : List Insn → Nat → List Jump
  | [], _ => []
  | insn :: insns, i =>
    if i < f.size then
      match jmpOpcs insn with
      | none => jumpsFrom insns (i + insn.length)
      | some opcs =>
        let stop := i + insn.length
        ⟨i, stop, u64 (f.addr + stop + jmpOffset D.byteSigned insn opcs),
          u64 (f.addr + stop + jmpOffset true insn opcs)⟩ :: jumpsFrom insns stop
    else []

def jumps : List Jump := f.jumpsFrom D f.insns 0

/-- The address is in the function. -/
def Inside (a : Nat) : Prop := f.addr ≤ a ∧ a < f.addr + f.size

/-- An entry of `next` is the code path that starts at an address, or null where the address is not
    in the function. -/
def Leads (cps : List CodePath) (p : NextCp) (a : Nat) : Prop :=
  (∃ (k : Nat) (cp : CodePath), p = .path k ∧ cps[k]? = some cp ∧ cp.cp = some a) ∨
    p = .null ∧ ¬ f.Inside a

/-- The code path that an instruction is in: the last one that starts before or at it. -/
def InCp (cps : List CodePath) (b pos : Nat) : Prop :=
  ∃ cp a, cps[b]? = some cp ∧ cp.cp = some a ∧ a ≤ f.addr + pos ∧
    ∀ (k : Nat) (cp' : CodePath) (a' : Nat), cps[k]? = some cp' → cp'.cp = some a' →
      a' ≤ f.addr + pos → a' ≤ a

/-- **The jump ends its code path**, which goes on at the next instruction or at the target. -/
def JumpRight (cps : List CodePath) (j : Jump) : Prop :=
  ∃ b cp, f.InCp cps b j.pos ∧ cps[b]? = some cp ∧ cp.condHead = some (f.addr + j.pos) ∧
    ∃ p q, cp.next = [p, q] ∧ f.Leads cps p (f.addr + j.stop) ∧ f.Leads cps q j.target

/-- A target that `calc_addr_jmp` gives, in the function and not behind a conditional jump. -/
def Extra (x : Nat) : Prop :=
  0 < x ∧ x < f.size ∧ (∃ j ∈ f.jumps D, j.jmp = f.addr + x) ∧ ∀ j ∈ f.jumps D, j.stop ≠ x

/-- The target is given right and is not the start of the function, or none is given for one that is
    not in the function. -/
def TargetMet (j : Jump) : Prop :=
  j.jmp = j.target ∧ f.Reached j.jmp ∨ ¬ f.Inside j.target ∧ ¬ f.Reached j.jmp

/-- **Where a jump ends its code path.**  If the function goes on behind the jump, no extra target
    stands before its end.  Else there has to be one, to make room for the last write, and that
    stands in the last instruction; or there is just one before the jump, so that the last write
    is for the jump, which has no target in the function. -/
def JumpMet (j : Jump) : Prop :=
  if j.stop < f.size then (∀ x, f.Extra D x → j.stop ≤ x) ∧ f.TargetMet j
  else
    (∀ x, f.Extra D x → j.pos < x) ∧ (∃ x, f.Extra D x) ∧ f.TargetMet j ∨
      (∃ x, f.Extra D x ∧ x ≤ j.pos ∧ ∀ y, f.Extra D y → y ≤ j.pos → y = x) ∧ ¬ f.Inside j.target

end AsmFunc

/-! ## The jumps -/

variable {D} {f : AsmFunc}

namespace AsmFunc

theorem u64_fits {x : Int} (h0 : 0 ≤ x) (h : x < 2 ^ 64) : (u64 x : Int) = x := by
  unfold u64
  rw [Int.emod_eq_of_lt h0 h, Int.toNat_of_nonneg h0]

theorem calcAddrJmp_eq {insn : Insn} (hinsn : insn ∈ f.insns) {i : Nat} (hi : i < f.size)
    (opcs : Nat) : calcAddrJmp D (f.addr + i) insn opcs = (f.addr + (i + insn.length),
      u64 (f.addr + (i + insn.length : Nat) + jmpOffset D.byteSigned insn opcs)) := by
  have hfits := f.fits insn hinsn
  have hnext : u64 ((f.addr + i : Nat) + insn.length) = f.addr + (i + insn.length) := by
    have := u64_fits (x := (f.addr + i : Nat) + insn.length) (by omega) (by omega)
    omega
  unfold calcAddrJmp
  simp only [hnext]
  push_cast
  rfl

/-- Where the jumps are. -/
theorem jumpsFrom_spec {insns : List Insn} (hsub : insns ⊆ f.insns) (i : Nat) :
    (∀ j ∈ f.jumpsFrom D insns i, i ≤ j.pos ∧ j.pos < j.stop ∧ j.pos < f.size) ∧
      (f.jumpsFrom D insns i).Pairwise fun j j' => j.stop ≤ j'.pos := by
  induction insns generalizing i with
  | nil => exact ⟨fun j hj => (by cases hj), List.Pairwise.nil⟩
  | cons insn insns ih =>
    obtain ⟨hinsn, hrest⟩ := List.cons_subset.mp hsub
    have hlen := f.length_pos insn hinsn
    obtain ⟨hbounds, hsorted⟩ := ih hrest (i + insn.length)
    unfold jumpsFrom
    split
    · rename_i hi
      split
      · refine ⟨fun j hj => ?_, hsorted⟩
        obtain ⟨hle, hrest⟩ := hbounds j hj
        exact ⟨by omega, hrest⟩
      · refine ⟨fun j hj => ?_, List.pairwise_cons.mpr ⟨fun j hj => (hbounds j hj).1, hsorted⟩⟩
        obtain rfl | hj := List.mem_cons.mp hj
        · exact ⟨Nat.le_refl i, Nat.lt_add_of_pos_right hlen, hi⟩
        · obtain ⟨hle, hrest⟩ := hbounds j hj
          exact ⟨by omega, hrest⟩
    · exact ⟨fun j hj => (by cases hj), List.Pairwise.nil⟩

theorem jump_bounds {j : Jump} (hj : j ∈ f.jumps D) : j.pos < j.stop ∧ j.pos < f.size :=
  ((jumpsFrom_spec (List.Subset.refl _) 0).1 j hj).2

/-- A jump ends before the next one. -/
theorem jump_lt {k l : Nat} {j j' : Jump} (hj : (f.jumps D)[k]? = some j)
    (hj' : (f.jumps D)[l]? = some j') (hkl : k < l) : j.stop ≤ j'.pos := by
  obtain ⟨hk, rfl⟩ := List.getElem?_eq_some_iff.mp hj
  obtain ⟨hl, rfl⟩ := List.getElem?_eq_some_iff.mp hj'
  exact List.pairwise_iff_getElem.mp (jumpsFrom_spec (List.Subset.refl _) 0).2 k l hk hl hkl

/-! ## The first loop -/

/-- The first loop goes over the jumps. -/
theorem leaderLoop_eq {insns : List Insn} (hsub : insns ⊆ f.insns) (i : Nat) (st : Leaders D) :
    f.leaderLoop D insns i st = (f.jumpsFrom D insns i).foldl
      (fun st j => f.setLeader D (f.setLeader D st (f.addr + j.stop)) j.jmp) st := by
  induction insns generalizing i st with
  | nil => rfl
  | cons insn insns ih =>
    obtain ⟨hinsn, hrest⟩ := List.cons_subset.mp hsub
    unfold leaderLoop jumpsFrom
    split
    · rename_i hi
      cases hopcs : jmpOpcs insn with
      | none => exact ih hrest _ st
      | some opcs =>
        simp only [calcAddrJmp_eq hinsn hi]
        exact ih hrest _ _
    · rfl

variable (D f)

/-- `bm` and `entries` after the first loop. -/
def leaders : Leaders D := f.leaderLoop D f.insns 0 (f.leaderStart D)

/-- A code path starts here. -/
def Leader (x : Nat) : Prop :=
  x = 0 ∨ 0 < x ∧ x < f.size ∧ ∃ j ∈ f.jumps D, j.stop = x ∨ j.jmp = f.addr + x

/-- How many code paths start before an offset. -/
def rank (x : Nat) : Nat := Nat.count (fun x => D.bit (f.leaders D).bm x = true) x

variable {D f}

/-- What is counted is marked, in a bitmap of the function's size. -/
structure Leaders.Counted (size : Nat) (st : Leaders D) : Prop where
  size_eq : D.size st.bm = size
  entries : st.entries = Nat.count (fun x => D.bit st.bm x = true) size

/-- Counting a bit that is set. -/
theorem count_setBit {bm bm' : D.Bm} {i size : Nat} (hi : i < size)
    (hbit : ∀ x, D.bit bm' x = (decide (x = i) || D.bit bm x)) :
    Nat.count (fun x => D.bit bm' x = true) size =
      Nat.count (fun x => D.bit bm x = true) size + if D.bit bm i = true then 0 else 1 := by
  simp only [Nat.count_eq_card_filter_range]
  have hset : (Finset.range size).filter (fun x => D.bit bm' x = true) =
      insert i ((Finset.range size).filter fun x => D.bit bm x = true) := by
    ext x
    simp only [Finset.mem_filter, Finset.mem_insert, Finset.mem_range, hbit, Bool.or_eq_true,
      decide_eq_true_eq]
    constructor
    · rintro ⟨hx, rfl | h⟩
      · exact Or.inl rfl
      · exact Or.inr ⟨hx, h⟩
    · rintro (rfl | ⟨hx, h⟩)
      · exact ⟨hi, Or.inl rfl⟩
      · exact ⟨hx, Or.inr h⟩
  rw [hset]
  by_cases hold : D.bit bm i = true
  · have hmem : i ∈ (Finset.range size).filter fun x => D.bit bm x = true :=
      Finset.mem_filter.mpr ⟨Finset.mem_range.mpr hi, hold⟩
    rw [if_pos hold, Finset.insert_eq_of_mem hmem, Nat.add_zero]
  · have hmem : i ∉ (Finset.range size).filter fun x => D.bit bm x = true := fun h =>
      hold (Finset.mem_filter.mp h).2
    rw [if_neg hold, Finset.card_insert_of_notMem hmem]

theorem setLeader_bit {st : Leaders D} (hsize : D.size st.bm = f.size) (a x : Nat) :
    D.bit (f.setLeader D st a).bm x = true ↔
      D.bit st.bm x = true ∨ f.Reached a ∧ a = f.addr + x := by
  unfold setLeader
  by_cases ha : f.Reached a
  · have hx : x = a - f.addr ↔ a = f.addr + x := by
      unfold Reached at ha
      omega
    have hlt : a - f.addr < D.size st.bm := by
      unfold Reached at ha
      omega
    rw [if_pos ha]
    simp only [D.bit_set _ _ x hlt, Bool.or_eq_true, decide_eq_true_eq, hx, ha, true_and]
    exact or_comm
  · rw [if_neg ha]
    exact ⟨Or.inl, fun h => h.resolve_right fun hr => ha hr.1⟩

theorem setLeader_counted {st : Leaders D} (hst : Leaders.Counted f.size st) (a : Nat) :
    Leaders.Counted f.size (f.setLeader D st a) := by
  unfold setLeader
  by_cases ha : f.Reached a
  · have hlt : a - f.addr < f.size := by
      unfold Reached at ha
      omega
    have hlt' : a - f.addr < D.size st.bm := by rwa [hst.size_eq]
    rw [if_pos ha]
    refine ⟨(D.size_set _ _).trans hst.size_eq, ?_⟩
    simp only [count_setBit hlt fun x => D.bit_set st.bm _ x hlt', D.old_set _ _ hlt',
      ← hst.entries]
    split <;> rfl
  · rwa [if_neg ha]

theorem leaderStart_bit (hsize : 0 < f.size) (x : Nat) :
    D.bit (f.leaderStart D).bm x = true ↔ x = 0 := by
  have hlt : 0 < D.size (D.clibBitmapCreate f.size) := by rwa [D.size_create]
  simp only [leaderStart, D.bit_set _ _ x hlt, D.bit_create, Bool.or_false, decide_eq_true_eq]

theorem leaderStart_counted (hsize : 0 < f.size) : Leaders.Counted f.size (f.leaderStart D) := by
  have hlt : 0 < D.size (D.clibBitmapCreate f.size) := by rwa [D.size_create]
  refine ⟨(D.size_set _ _).trans (D.size_create _), ?_⟩
  have hnone : Nat.count (fun x => D.bit (D.clibBitmapCreate f.size) x = true) f.size = 0 :=
    Nat.count_iff_forall_not.mpr fun m _ => by rw [D.bit_create]; exact Bool.false_ne_true
  have hset : (D.bit (D.clibBitmapCreate f.size) 0 = true) = False := by
    rw [D.bit_create]
    exact eq_false Bool.false_ne_true
  have hone := count_setBit hsize fun x => D.bit_set (D.clibBitmapCreate f.size) 0 x hlt
  simp only [hnone, hset, if_false, Nat.zero_add] at hone
  exact hone.symm

/-- The jumps set the bits behind them and of their targets. -/
theorem foldl_setLeader (js : List Jump) {st : Leaders D} (hst : Leaders.Counted f.size st) :
    Leaders.Counted f.size
        (js.foldl (fun st j => f.setLeader D (f.setLeader D st (f.addr + j.stop)) j.jmp) st) ∧
      ∀ x, D.bit (js.foldl
          (fun st j => f.setLeader D (f.setLeader D st (f.addr + j.stop)) j.jmp) st).bm x = true ↔
        D.bit st.bm x = true ∨ ∃ j ∈ js, f.Reached (f.addr + x) ∧
          (j.stop = x ∨ j.jmp = f.addr + x) := by
  induction js generalizing st with
  | nil => exact ⟨hst, fun x => by simp⟩
  | cons j js ih =>
    have hst₁ := setLeader_counted hst (f.addr + j.stop)
    obtain ⟨hcount, hbm⟩ := ih (setLeader_counted hst₁ j.jmp)
    refine ⟨hcount, fun x => (hbm x).trans ?_⟩
    rw [setLeader_bit hst₁.size_eq, setLeader_bit hst.size_eq]
    constructor
    · rintro (((h | ⟨hr, heq⟩) | ⟨hr, heq⟩) | ⟨j', hj', h⟩)
      · exact Or.inl h
      · exact Or.inr ⟨j, List.mem_cons_self, heq ▸ hr, Or.inl (by omega)⟩
      · exact Or.inr ⟨j, List.mem_cons_self, heq ▸ hr, Or.inr heq⟩
      · exact Or.inr ⟨j', List.mem_cons_of_mem _ hj', h⟩
    · rintro (h | ⟨j', hj', hr, h⟩)
      · exact Or.inl (Or.inl (Or.inl h))
      · obtain rfl | hj' := List.mem_cons.mp hj'
        · obtain rfl | h := h
          · exact Or.inl (Or.inl (Or.inr ⟨hr, rfl⟩))
          · exact Or.inl (Or.inr ⟨h ▸ hr, h⟩)
        · exact Or.inr ⟨j', hj', hr, h⟩

theorem leaders_eq : f.leaders D = (f.jumps D).foldl
    (fun st j => f.setLeader D (f.setLeader D st (f.addr + j.stop)) j.jmp) (f.leaderStart D) :=
  leaderLoop_eq (List.Subset.refl _) 0 _

theorem leaders_counted (hsize : 0 < f.size) : Leaders.Counted f.size (f.leaders D) := by
  rw [leaders_eq]
  exact (foldl_setLeader _ (leaderStart_counted hsize)).1

/-- **The first loop** marks the code paths and counts them. -/
theorem leaders_spec (hsize : 0 < f.size) :
    (∀ x, D.bit (f.leaders D).bm x = true ↔ f.Leader D x) ∧
      (f.leaders D).entries = f.rank D f.size := by
  refine ⟨fun x => ?_, (leaders_counted hsize).entries⟩
  rw [leaders_eq, (foldl_setLeader _ (leaderStart_counted hsize)).2 x, leaderStart_bit hsize]
  unfold Leader Reached
  refine or_congr_right ⟨?_, ?_⟩
  · rintro ⟨j, hj, ⟨h0, hlt⟩, h⟩
    exact ⟨by omega, by omega, j, hj, h⟩
  · rintro ⟨h0, hlt, j, hj, h⟩
    exact ⟨j, hj, ⟨by omega, by omega⟩, h⟩

/-! ## The code paths that are made -/

/-- The next code path has the next rank. -/
theorem clibBitmapNonzero_spec {bm : D.Bm} {start size : Nat} (hsize : D.size bm = size)
    (h : Nat.count (fun x => D.bit bm x = true) start <
      Nat.count (fun x => D.bit bm x = true) size) :
    ∃ a, D.clibBitmapNonzero bm start = some a ∧ a < size ∧ D.bit bm a = true ∧
      Nat.count (fun x => D.bit bm x = true) a = Nat.count (fun x => D.bit bm x = true) start := by
  obtain ⟨x, ⟨hstart, hlt⟩, hx⟩ := Nat.exists_of_count_lt_count h
  cases hfind : D.clibBitmapNonzero bm start with
  | none =>
    have hno := D.nonzero_none bm start hfind x hstart (by rwa [hsize])
    rw [hx] at hno
    cases hno
  | some a =>
    obtain ⟨hle, hbit, hbefore⟩ := D.nonzero_some bm start a hfind
    have hax : a ≤ x := by
      by_contra hno
      have := hbefore x hstart (Nat.not_le.mp hno)
      rw [hx] at this
      cases this
    refine ⟨a, rfl, Nat.lt_of_le_of_lt hax hlt, hbit, ?_⟩
    obtain ⟨d, rfl⟩ := Nat.exists_eq_add_of_le hle
    rw [Nat.count_add, Nat.add_eq_left, Nat.count_iff_forall_not]
    intro m hm hset
    rw [hbefore (start + m) (by omega) (by omega)] at hset
    cases hset

/-- The code path of a leader. -/
def newCpAt (f : AsmFunc) (a : Nat) : CodePath := { codePathNew 0 with cp := some (f.addr + a) }

theorem newCps_spec {bm : D.Bm} (hsize : D.size bm = f.size) (n start : Nat)
    (h : Nat.count (fun x => D.bit bm x = true) start + n =
      Nat.count (fun x => D.bit bm x = true) f.size) :
    ∃ cps, f.newCps D bm n start = some cps ∧ cps.length = n ∧
      ∀ k < n, ∃ a < f.size, D.bit bm a = true ∧
        Nat.count (fun x => D.bit bm x = true) a =
          Nat.count (fun x => D.bit bm x = true) start + k ∧
        cps[k]? = some (f.newCpAt a) := by
  induction n generalizing start with
  | zero => exact ⟨[], rfl, rfl, fun k hk => absurd hk (Nat.not_lt_zero k)⟩
  | succ n ih =>
    have hmore : Nat.count (fun x => D.bit bm x = true) start <
        Nat.count (fun x => D.bit bm x = true) f.size := by omega
    obtain ⟨a, hfind, hlt, hbit, hrank⟩ := clibBitmapNonzero_spec hsize hmore
    have hnext : Nat.count (fun x => D.bit bm x = true) (a + 1) =
        Nat.count (fun x => D.bit bm x = true) start + 1 := by
      rw [Nat.count_succ, if_pos hbit, hrank]
    obtain ⟨cps, hcps, hlen, hall⟩ := ih (a + 1) (by omega)
    refine ⟨f.newCpAt a :: cps, ?_, by rw [List.length_cons, hlen], fun k hk => ?_⟩
    · rw [newCps, hfind]
      simp only [hcps, Option.map_some]
      rfl
    · cases k with
      | zero => exact ⟨a, hlt, hbit, hrank, rfl⟩
      | succ k =>
        obtain ⟨a', hlt', hbit', hrank', hget⟩ := hall k (by omega)
        exact ⟨a', hlt', hbit', by omega, hget⟩

variable (D f)

/-- The code paths stand in the order of their leaders. -/
def Placed (cps : List CodePath) : Prop :=
  cps.length = f.rank D f.size ∧ ∀ k < cps.length, ∃ a < f.size, f.Leader D a ∧ f.rank D a = k ∧
    ∃ cp, cps[k]? = some cp ∧ cp.cp = some (f.addr + a)

variable {D f}

theorem rank_succ (hsize : 0 < f.size) {a : Nat} (ha : f.Leader D a) :
    f.rank D (a + 1) = f.rank D a + 1 := by
  unfold rank
  rw [Nat.count_succ, if_pos (((leaders_spec hsize).1 a).mpr ha)]

theorem rank_mono {a b : Nat} (h : a ≤ b) : f.rank D a ≤ f.rank D b := Nat.count_monotone _ h

theorem rank_lt (hsize : 0 < f.size) {a b : Nat} (ha : f.Leader D a) (h : a < b) :
    f.rank D a < f.rank D b := by
  have hle : f.rank D (a + 1) ≤ f.rank D b := rank_mono h
  rw [rank_succ hsize ha] at hle
  omega

theorem rank_inj (hsize : 0 < f.size) {a b : Nat} (ha : f.Leader D a) (hb : f.Leader D b)
    (h : f.rank D a = f.rank D b) : a = b := by
  obtain hlt | heq | hgt := Nat.lt_trichotomy a b
  · have := rank_lt hsize ha hlt
    omega
  · exact heq
  · have := rank_lt hsize hb hgt
    omega

/-- Between two offsets of one rank no code path starts. -/
theorem rank_eq_iff (hsize : 0 < f.size) {a b : Nat} (h : a ≤ b) :
    f.rank D a = f.rank D b ↔ ∀ x, a ≤ x → x < b → ¬ f.Leader D x := by
  constructor
  · intro heq x hax hxb hx
    have h1 := rank_mono (D := D) (f := f) hax
    have h2 := rank_lt hsize hx hxb
    omega
  · intro hno
    obtain ⟨d, rfl⟩ := Nat.exists_eq_add_of_le h
    unfold rank
    rw [Nat.count_add, Nat.left_eq_add, Nat.count_iff_forall_not]
    intro m hm hset
    exact hno (a + m) (by omega) (by omega) (((leaders_spec hsize).1 _).mp hset)

/-- **Each leader has its code path.** -/
theorem Placed.get (hsize : 0 < f.size) {cps : List CodePath} (h : f.Placed D cps) {a : Nat}
    (ha : f.Leader D a) : ∃ cp, cps[f.rank D a]? = some cp ∧ cp.cp = some (f.addr + a) := by
  have hlt : a < f.size := by
    obtain rfl | ⟨-, hlt, -⟩ := ha
    · exact hsize
    · exact hlt
  have hrank := rank_lt hsize ha hlt
  obtain ⟨a', -, ha', hrank', cp, hcp, hat⟩ := h.2 _ (by rw [h.1]; exact hrank)
  rw [rank_inj hsize ha' ha hrank'] at hat
  exact ⟨cp, hcp, hat⟩

theorem Placed.rank_of {cps : List CodePath} (h : f.Placed D cps) {k a : Nat}
    {cp : CodePath} (hk : cps[k]? = some cp) (ha : cp.cp = some (f.addr + a)) :
    f.Leader D a ∧ f.rank D a = k := by
  obtain ⟨a', -, ha', hrank', cp', hcp', hat⟩ := h.2 k (List.getElem?_eq_some_iff.mp hk).1
  cases hk.symm.trans hcp'
  have heq : a' = a := by
    have := Option.some.inj (hat.symm.trans ha)
    omega
  exact ⟨heq ▸ ha', heq ▸ hrank'⟩

/-! ## The second loop -/

theorem leader_stop {j : Jump} (hj : j ∈ f.jumps D) (h : j.stop < f.size) : f.Leader D j.stop := by
  have hpos := (jump_bounds hj).1
  exact Or.inr ⟨by omega, h, j, hj, Or.inl rfl⟩

theorem leader_jmp {j : Jump} (hj : j ∈ f.jumps D) (h : f.Reached j.jmp) :
    f.Leader D (j.jmp - f.addr) := by
  unfold Reached at h
  exact Or.inr ⟨by omega, by omega, j, hj, Or.inr (by omega)⟩

/-- Before the end of a jump there are the code paths of the jumps before it. -/
theorem le_rank (hsize : 0 < f.size) {k : Nat} {j : Jump} (hj : (f.jumps D)[k]? = some j) :
    k + 1 ≤ f.rank D (j.pos + 1) := by
  induction k generalizing j with
  | zero =>
    have h0 := rank_lt hsize (Or.inl rfl : f.Leader D 0) (Nat.succ_pos j.pos)
    rw [Nat.succ_eq_add_one] at h0
    omega
  | succ k ih =>
    have hk : k < (f.jumps D).length := by
      have := (List.getElem?_eq_some_iff.mp hj).1
      omega
    have hprev : (f.jumps D)[k]? = some (f.jumps D)[k] := List.getElem?_eq_getElem hk
    obtain ⟨hpos, -⟩ := jump_bounds (List.getElem_mem hk)
    have hstop := jump_lt hprev hj (Nat.lt_succ_self k)
    have hlast := (jump_bounds (List.mem_of_getElem? hj)).2
    have h1 := ih hprev
    have h2 : f.rank D ((f.jumps D)[k].pos + 1) ≤ f.rank D (f.jumps D)[k].stop :=
      rank_mono (by omega)
    have h3 := rank_lt hsize (leader_stop (List.getElem_mem hk) (by omega))
      (by omega : (f.jumps D)[k].stop < j.pos + 1)
    omega

/-- There is a code path for each jump, and one behind it if the function goes on. -/
theorem le_rank_size (hsize : 0 < f.size) {k : Nat} {j : Jump} (hj : (f.jumps D)[k]? = some j) :
    k < f.rank D f.size ∧ (j.stop < f.size → k + 1 < f.rank D f.size) := by
  have hrank := le_rank hsize hj
  obtain ⟨hpos, hlt⟩ := jump_bounds (List.mem_of_getElem? hj)
  have hle : f.rank D (j.pos + 1) ≤ f.rank D f.size := rank_mono (by omega)
  refine ⟨by omega, fun hstop => ?_⟩
  have h1 : f.rank D (j.pos + 1) ≤ f.rank D j.stop := rank_mono (by omega)
  have h2 := rank_lt hsize (leader_stop (List.mem_of_getElem? hj) hstop) hstop
  omega

theorem searchCp_eq {cps : List CodePath} (hp : f.Placed D cps) (hsize : 0 < f.size) {a : Nat}
    (ha : f.Leader D a) : searchCp cps (f.addr + a) = some (f.rank D a) := by
  obtain ⟨cp, hcp, hat⟩ := hp.get hsize ha
  have hlt := (List.getElem?_eq_some_iff.mp hcp).1
  have hfold : ∀ n ≤ cps.length, (List.range n).foldl
      (fun res k => if cps[k]?.bind CodePath.cp = some (f.addr + a) then some k else res) none =
      if f.rank D a < n then some (f.rank D a) else none := by
    intro n hn
    induction n with
    | zero => rfl
    | succ n ih =>
      rw [List.range_succ, List.foldl_append, ih (by omega)]
      simp only [List.foldl_cons, List.foldl_nil]
      by_cases heq : n = f.rank D a
      · subst heq
        rw [hcp, Option.bind_some, hat, if_pos rfl, if_pos (Nat.lt_succ_self _)]
      · have hne : cps[n]?.bind CodePath.cp ≠ some (f.addr + a) := fun hn' => by
          obtain ⟨cp', hcp', hat'⟩ := Option.bind_eq_some_iff.mp hn'
          exact heq (hp.rank_of hcp' hat').2.symm
        rw [if_neg hne]
        by_cases hless : f.rank D a < n
        · rw [if_pos hless, if_pos (by omega)]
        · rw [if_neg hless, if_neg (by omega)]
  unfold searchCp
  rw [hfold _ (Nat.le_refl _), if_pos hlt]

theorem Placed.modify {cps : List CodePath} (hp : f.Placed D cps) (i : Nat)
    {g : CodePath → CodePath} (hg : ∀ cp, (g cp).cp = cp.cp) : f.Placed D (cps.modify i g) := by
  refine ⟨by rw [List.length_modify, hp.1], fun k hk => ?_⟩
  rw [List.length_modify] at hk
  obtain ⟨a, hlt, ha, hrank, cp, hcp, hat⟩ := hp.2 k hk
  refine ⟨a, hlt, ha, hrank, if i = k then g cp else cp, ?_, ?_⟩
  · rw [List.getElem?_modify, hcp]
    split <;> rfl
  · split
    · exact (hg cp).trans hat
    · exact hat

variable (D f)

/-- What a jump makes of its code path, the one with its number. -/
def jumpCp (k : Nat) (j : Jump) (cp : CodePath) : CodePath :=
  let next := if f.Reached (f.addr + j.stop) then cp.next.set 0 (.path (k + 1)) else cp.next
  { cp with
    next := if f.Reached j.jmp then next.set 1 (.path (f.rank D (j.jmp - f.addr))) else next
    condHead := some (f.addr + j.pos) }

variable {D f}

theorem writeCp_eq {cps : List CodePath} {i : Nat} (hi : i < cps.length) (g : CodePath → CodePath) :
    writeCp cps i g = some (cps.modify i g) := if_pos hi

theorem connectJump_eq (hsize : 0 < f.size) {cps : List CodePath} (hp : f.Placed D cps) {k : Nat}
    {j : Jump} (hj : (f.jumps D)[k]? = some j) :
    f.connectJump cps k (f.addr + j.pos) (f.addr + j.stop) j.jmp =
      some (cps.modify k (f.jumpCp D k j)) := by
  obtain ⟨hk, hnext⟩ := le_rank_size hsize hj
  have hjmem := List.mem_of_getElem? hj
  rw [← hp.1] at hk hnext
  have hsearch : ∀ {cps' : List CodePath}, f.Placed D cps' → f.Reached j.jmp →
      searchCp cps' j.jmp = some (f.rank D (j.jmp - f.addr)) := fun hp' hr => by
    have haddr : j.jmp = f.addr + (j.jmp - f.addr) := by
      unfold Reached at hr
      omega
    rw [haddr, searchCp_eq hp' hsize (leader_jmp hjmem hr), ← haddr]
  unfold connectJump jumpCp
  by_cases hstop : f.Reached (f.addr + j.stop)
  · have hlt : k + 1 < cps.length := hnext (by unfold Reached at hstop; omega)
    have hp' := hp.modify k (g := fun cp => { cp with next := cp.next.set 0 (.path (k + 1)) })
      fun _ => rfl
    simp only [if_pos hstop, if_pos hlt, writeCp_eq hk, Option.bind_eq_bind, Option.bind_some]
    by_cases hjmp : f.Reached j.jmp
    · simp only [if_pos hjmp, hsearch hp' hjmp]
      rw [writeCp_eq (by rw [List.length_modify]; exact hk), Option.bind_some,
        writeCp_eq (by rw [List.length_modify, List.length_modify]; exact hk),
        List.modify_modify_eq, List.modify_modify_eq]
      rfl
    · simp only [if_neg hjmp]
      rw [writeCp_eq (by rw [List.length_modify]; exact hk), List.modify_modify_eq]
      rfl
  · simp only [if_neg hstop, Option.bind_eq_bind, Option.bind_some]
    by_cases hjmp : f.Reached j.jmp
    · simp only [if_pos hjmp, hsearch hp hjmp]
      rw [writeCp_eq hk, Option.bind_some, writeCp_eq (by rw [List.length_modify]; exact hk),
        List.modify_modify_eq]
      rfl
    · simp only [if_neg hjmp]
      rw [writeCp_eq hk]

/-- The second loop on the jumps. -/
def connectAll (f : AsmFunc) : List Jump → List CodePath → Nat → Option (List CodePath)
  | [], cps, _ => some cps
  | j :: js, cps, k =>
    match f.connectJump cps k (f.addr + j.pos) (f.addr + j.stop) j.jmp with
    | none => none
    | some cps => connectAll f js cps (k + 1)

/-- The last instruction. -/
def lastFrom (f : AsmFunc) : List Insn → Nat → Nat → Nat
  | [], _, prev => prev
  | insn :: insns, i, prev =>
    if i < f.size then lastFrom f insns (i + insn.length) (f.addr + i) else prev

/-- The second loop goes over the jumps. -/
theorem connectLoop_eq {insns : List Insn} (hsub : insns ⊆ f.insns) (i : Nat) (cps : List CodePath)
    (k prev : Nat) : f.connectLoop D insns i (cps, k, prev) =
      (f.connectAll (f.jumpsFrom D insns i) cps k).map fun cps =>
        (cps, k + (f.jumpsFrom D insns i).length, f.lastFrom insns i prev) := by
  induction insns generalizing i cps k prev with
  | nil => rfl
  | cons insn insns ih =>
    obtain ⟨hinsn, hrest⟩ := List.cons_subset.mp hsub
    unfold connectLoop jumpsFrom lastFrom
    split
    · rename_i hi
      cases hopcs : jmpOpcs insn with
      | none => exact ih hrest _ cps k _
      | some opcs =>
        simp only [calcAddrJmp_eq hinsn hi, connectAll, List.length_cons]
        cases f.connectJump cps k (f.addr + i) (f.addr + (i + insn.length)) _ with
        | none => rfl
        | some cps' =>
          simp only
          rw [ih hrest]
          congr 1
          funext cps''
          rw [Nat.add_assoc, Nat.add_comm 1]
    · rfl

/-- The last jump is the last instruction if the function does not go on behind it. -/
theorem lastFrom_eq {insns : List Insn} {i prev : Nat} {j : Jump}
    (hj : j ∈ f.jumpsFrom D insns i) (hstop : f.size ≤ j.stop) :
    f.lastFrom insns i prev = f.addr + j.pos := by
  induction insns generalizing i prev with
  | nil => cases hj
  | cons insn insns ih =>
    unfold jumpsFrom at hj
    unfold lastFrom
    by_cases hi : i < f.size
    · rw [if_pos hi] at hj ⊢
      cases hopcs : jmpOpcs insn with
      | none =>
        rw [hopcs] at hj
        exact ih hj
      | some opcs =>
        rw [hopcs] at hj
        obtain rfl | hj := List.mem_cons.mp hj
        · cases insns with
          | nil => rfl
          | cons insn' insns => exact if_neg (Nat.not_lt.mpr hstop)
        · exact ih hj
    · rw [if_neg hi] at hj
      cases hj

/-- The second loop comes back: each jump has a code path. -/
theorem connectAll_eq (hsize : 0 < f.size) (js : List Jump) {cps : List CodePath} {k : Nat}
    (hjs : js = (f.jumps D).drop k) (hp : f.Placed D cps) :
    ∃ cps', f.connectAll js cps k = some cps' ∧ f.Placed D cps' ∧ ∀ l,
      (l < k → cps'[l]? = cps[l]?) ∧
      (∀ j, k ≤ l → (f.jumps D)[l]? = some j → cps'[l]? = cps[l]?.map (f.jumpCp D l j)) ∧
      (k ≤ l → (f.jumps D)[l]? = none → cps'[l]? = cps[l]?) := by
  induction js generalizing cps k with
  | nil =>
    refine ⟨cps, rfl, hp, fun l => ⟨fun _ => rfl, fun j hl hj => ?_, fun _ _ => rfl⟩⟩
    have hle := List.drop_eq_nil_iff.mp hjs.symm
    have := (List.getElem?_eq_some_iff.mp hj).1
    omega
  | cons j js ih =>
    have hj : (f.jumps D)[k]? = some j := by
      have hhead := congrArg List.head? hjs
      rw [List.head?_drop] at hhead
      exact hhead.symm
    have hjs' : js = (f.jumps D).drop (k + 1) := by
      rw [← List.tail_drop, ← hjs]
      rfl
    obtain ⟨cps', hcps', hp', hall⟩ := ih hjs' (hp.modify k (g := f.jumpCp D k j) fun _ => rfl)
    refine ⟨cps', ?_, hp', fun l => ?_⟩
    · rw [connectAll, connectJump_eq hsize hp hj]
      exact hcps'
    · obtain ⟨hbefore, hjump, hrest⟩ := hall l
      refine ⟨fun hl => ?_, fun j' hl hj' => ?_, fun hl hnone => ?_⟩
      · rw [hbefore (by omega), List.getElem?_modify_ne _ _ (by omega)]
      · obtain rfl | hlt := Nat.eq_or_lt_of_le hl
        · cases hj.symm.trans hj'
          rw [hbefore (Nat.lt_succ_self k), List.getElem?_modify_eq]
          rfl
        · rw [hjump j' hlt hj', List.getElem?_modify_ne _ _ (by omega)]
      · obtain rfl | hlt := Nat.eq_or_lt_of_le hl
        · cases hj.symm.trans hnone
        · rw [hrest hlt hnone, List.getElem?_modify_ne _ _ (by omega)]

/-- What the code path with the number `k` is in the end. -/
structure Final (D : AsmLibs) (f : AsmFunc) (k : Nat) (cp : CodePath) : Prop where
  jump : ∀ j : Jump, (f.jumps D)[k]? = some j → cp.condHead = some (f.addr + j.pos) ∧
    cp.next = [if f.Reached (f.addr + j.stop) then .path (k + 1) else .null,
      if f.Reached j.jmp then .path (f.rank D (j.jmp - f.addr)) else .null]
  last : k = (f.jumps D).length →
    cp.condHead = some (f.lastFrom f.insns 0 f.addr) ∧ cp.next = [.null, .null]
  behind : (f.jumps D).length < k → cp.condHead = none

/-- **The second loop** gives each jump the code path with its number; the last instruction is
    written to the next one, if there is one. -/
theorem getFuncDetail_spec (hsize : 0 < f.size) :
    ((f.jumps D).length < f.rank D f.size → ∃ cps, getFuncDetail D f = some cps) ∧
      ∀ cps, getFuncDetail D f = some cps → (f.jumps D).length < f.rank D f.size ∧
        f.Placed D cps ∧ ∀ (k : Nat) (cp : CodePath), cps[k]? = some cp → Final D f k cp := by
  obtain ⟨hbm, hcount⟩ := leaders_spec (D := D) hsize
  have hentries : (f.leaders D).entries =
      Nat.count (fun x => D.bit (f.leaders D).bm x = true) f.size := hcount
  obtain ⟨cps₀, hcps₀, hlen₀, hall₀⟩ := newCps_spec (leaders_counted hsize).size_eq
    (f.leaders D).entries 0 (by rw [Nat.count_zero, hentries, Nat.zero_add])
  have hp₀ : f.Placed D cps₀ := by
    refine ⟨hlen₀.trans hcount, fun k hk => ?_⟩
    obtain ⟨a, hlt, hbit, hrank, hget⟩ := hall₀ k (by rw [← hlen₀]; exact hk)
    rw [Nat.count_zero, Nat.zero_add] at hrank
    exact ⟨a, hlt, (hbm a).mp hbit, hrank, _, hget, rfl⟩
  have hnew : ∀ (k : Nat) (cp : CodePath), cps₀[k]? = some cp →
      cp.condHead = none ∧ cp.next = [.null, .null] := by
    intro k cp hcp
    obtain ⟨a, -, -, -, hget⟩ :=
      hall₀ k (by rw [← hlen₀]; exact (List.getElem?_eq_some_iff.mp hcp).1)
    cases hcp.symm.trans hget
    exact ⟨rfl, rfl⟩
  obtain ⟨cps₁, hcps₁, hp₁, hall₁⟩ :=
    connectAll_eq (D := D) hsize (f.jumps D) List.drop_zero.symm hp₀
  have hrun : getFuncDetail D f = writeCp cps₁ (f.jumps D).length fun cp =>
      { cp with condHead := some (f.lastFrom f.insns 0 f.addr) } := by
    have hloop := connectLoop_eq (D := D) (List.Subset.refl f.insns) 0 cps₀ 0 f.addr
    have hjs : f.jumpsFrom D f.insns 0 = f.jumps D := rfl
    rw [hjs, hcps₁, Nat.zero_add] at hloop
    have hst : f.leaderLoop D f.insns 0 (f.leaderStart D) = f.leaders D := rfl
    unfold getFuncDetail
    rw [if_neg (by omega)]
    simp only [Option.bind_eq_bind, hst, hcps₀, Option.bind_some, hloop, Option.map_some]
  rw [hrun]
  refine ⟨fun hlt => ⟨_, writeCp_eq (by rw [hp₁.1]; exact hlt) _⟩, fun cps hcps => ?_⟩
  unfold writeCp at hcps
  split at hcps
  · rename_i hlt
    cases hcps
    refine ⟨by rw [← hp₁.1]; exact hlt, hp₁.modify _ fun _ => rfl, fun k cp hcp => ?_⟩
    obtain ⟨-, hjump, hrest⟩ := hall₁ k
    refine ⟨fun j hj => ?_, fun hk => ?_, fun hk => ?_⟩
    · have hk := (List.getElem?_eq_some_iff.mp hj).1
      rw [List.getElem?_modify_ne _ _ (by omega), hjump j (Nat.zero_le k) hj] at hcp
      obtain ⟨cp₀, hcp₀, rfl⟩ := Option.map_eq_some_iff.mp hcp
      refine ⟨rfl, ?_⟩
      unfold jumpCp
      simp only [(hnew k cp₀ hcp₀).2]
      split <;> split <;> rfl
    · subst hk
      rw [List.getElem?_modify_eq, hrest (Nat.zero_le _) (List.getElem?_eq_none (Nat.le_refl _))]
        at hcp
      obtain ⟨cp₀, hcp₀, rfl⟩ := Option.map_eq_some_iff.mp hcp
      exact ⟨rfl, (hnew _ cp₀ hcp₀).2⟩
    · rw [List.getElem?_modify_ne _ _ (by omega),
        hrest (Nat.zero_le k) (List.getElem?_eq_none (by omega))] at hcp
      exact (hnew k cp hcp).1
  · cases hcps

/-! ## Where the jumps end their code paths -/

/-- The code path of an instruction has the rank of the leaders up to it. -/
theorem inCp_iff (hsize : 0 < f.size) {cps : List CodePath} (hp : f.Placed D cps) {pos b : Nat}
    (hpos : pos < f.size) : f.InCp cps b pos ↔ b + 1 = f.rank D (pos + 1) := by
  constructor
  · rintro ⟨cp, a, hb, hat, hle, hlast⟩
    obtain ⟨x, -, hx, hrank, cp', hb', hat'⟩ := hp.2 b (List.getElem?_eq_some_iff.mp hb).1
    cases hb.symm.trans hb'
    obtain rfl : a = f.addr + x := Option.some.inj (hat.symm.trans hat')
    rw [← hrank, ← rank_succ hsize hx]
    refine (rank_eq_iff hsize (by omega)).mpr fun y hxy hy hleader => ?_
    obtain ⟨cp'', hcp'', hat''⟩ := hp.get hsize hleader
    have := hlast _ cp'' _ hcp'' hat'' (by omega)
    omega
  · intro hb
    have hle : f.rank D (pos + 1) ≤ f.rank D f.size := rank_mono (by omega)
    obtain ⟨x, -, hx, hrank, cp, hcp, hat⟩ := hp.2 b (by rw [hp.1]; omega)
    refine ⟨cp, f.addr + x, hcp, hat, ?_, fun k cp' a' hk hat' hle' => ?_⟩
    · by_contra hno
      have hmono : f.rank D (pos + 1) ≤ f.rank D x := rank_mono (by omega)
      omega
    · obtain ⟨y, -, hy, hrank', cp'', hcp'', hat''⟩ := hp.2 k (List.getElem?_eq_some_iff.mp hk).1
      cases hk.symm.trans hcp''
      obtain rfl : a' = f.addr + y := Option.some.inj (hat'.symm.trans hat'')
      by_contra hno
      have h1 := rank_lt hsize hx (by omega : x < y)
      have h2 := rank_lt hsize hy (by omega : y < pos + 1)
      omega

/-- A leader is the start, the end of a jump or extra. -/
theorem leader_iff {x : Nat} : f.Leader D x ↔
    x = 0 ∨ (x < f.size ∧ ∃ j ∈ f.jumps D, j.stop = x) ∨ f.Extra D x := by
  constructor
  · rintro (h0 | ⟨hpos, hlt, j, hj, h⟩)
    · exact Or.inl h0
    · by_cases hstop : ∃ j ∈ f.jumps D, j.stop = x
      · exact Or.inr (Or.inl ⟨hlt, hstop⟩)
      · obtain h | h := h
        · exact absurd ⟨j, hj, h⟩ hstop
        · exact Or.inr (Or.inr ⟨hpos, hlt, ⟨j, hj, h⟩, fun j' hj' h' => hstop ⟨j', hj', h'⟩⟩)
  · rintro (h0 | ⟨hlt, j, hj, rfl⟩ | ⟨hpos, hlt, ⟨j, hj, h⟩, -⟩)
    · exact Or.inl h0
    · exact leader_stop hj hlt
    · exact Or.inr ⟨hpos, hlt, j, hj, Or.inr h⟩

instance : DecidablePred (f.Extra D) := fun x => by
  unfold Extra
  infer_instance

/-- The jumps end one after the other. -/
theorem stop_lt {k l : Nat} {j j' : Jump} (hj : (f.jumps D)[k]? = some j)
    (hj' : (f.jumps D)[l]? = some j') (hkl : k < l) : j.stop < j'.stop := by
  have hle := jump_lt hj hj' hkl
  have hpos := (jump_bounds (List.mem_of_getElem? hj')).1
  omega

variable (D f)

/-- The ends of the first `k` jumps. -/
def stops (k : Nat) : Finset Nat := (((f.jumps D).take k).map Jump.stop).toFinset

variable {D f}

theorem mem_stops {k x : Nat} :
    x ∈ f.stops D k ↔ ∃ i j, i < k ∧ (f.jumps D)[i]? = some j ∧ j.stop = x := by
  unfold stops
  rw [List.mem_toFinset, List.mem_map]
  constructor
  · rintro ⟨j, hj, rfl⟩
    obtain ⟨i, hi⟩ := List.mem_iff_getElem?.mp hj
    rw [List.getElem?_take] at hi
    split at hi
    · rename_i hik
      exact ⟨i, j, hik, hi, rfl⟩
    · cases hi
  · rintro ⟨i, j, hik, hget, rfl⟩
    have hi : ((f.jumps D).take k)[i]? = some j := by
      rw [List.getElem?_take, if_pos hik]
      exact hget
    exact ⟨j, List.mem_of_getElem? hi, rfl⟩

theorem card_stops {k : Nat} (hk : k ≤ (f.jumps D).length) : (f.stops D k).card = k := by
  unfold stops
  rw [List.toFinset_card_of_nodup, List.length_map, List.length_take, Nat.min_eq_left hk]
  refine List.pairwise_iff_getElem.mpr fun i l hi hl hil heq => ?_
  rw [List.length_map] at hi hl
  rw [List.getElem_map, List.getElem_map, List.getElem_take, List.getElem_take] at heq
  rw [List.length_take] at hi hl
  have hlt := stop_lt (List.getElem?_eq_getElem (by omega : i < (f.jumps D).length))
    (List.getElem?_eq_getElem (by omega : l < (f.jumps D).length)) hil
  omega

/-- **The leaders up to the end of a jump**: the start, the ends of the jumps before, and the extra
    ones. -/
theorem rank_between (hsize : 0 < f.size) {k a : Nat} {j : Jump} (hj : (f.jumps D)[k]? = some j)
    (hpos : j.pos < a) (hstop : a ≤ j.stop) (ha : a ≤ f.size) :
    f.rank D a = k + 1 + ((Finset.range a).filter (f.Extra D)).card := by
  have hk := (List.getElem?_eq_some_iff.mp hj).1
  have hbefore : ∀ {x}, x ∈ f.stops D k → 0 < x ∧ x < a ∧ ∃ j ∈ f.jumps D, j.stop = x :=
    fun {x} hx => by
      obtain ⟨i, j', hi, hj', rfl⟩ := mem_stops.mp hx
      have hmem := List.mem_of_getElem? hj'
      have hle := jump_lt hj' hj hi
      have hj'pos := (jump_bounds hmem).1
      exact ⟨by omega, by omega, j', hmem, rfl⟩
  have hsplit : (Finset.range a).filter (fun x => D.bit (f.leaders D).bm x = true) =
      insert 0 (f.stops D k) ∪ (Finset.range a).filter (f.Extra D) := by
    ext x
    rw [Finset.mem_union, Finset.mem_filter, Finset.mem_filter, Finset.mem_insert,
      (leaders_spec hsize).1 x, leader_iff, Finset.mem_range]
    constructor
    · rintro ⟨hx, h0 | ⟨-, j', hj', rfl⟩ | hextra⟩
      · exact Or.inl (Or.inl h0)
      · obtain ⟨i, hi⟩ := List.mem_iff_getElem?.mp hj'
        refine Or.inl (Or.inr (mem_stops.mpr ⟨i, j', ?_, hi, rfl⟩))
        by_contra hno
        obtain heq | hgt := Nat.eq_or_lt_of_le (Nat.not_lt.mp hno)
        · subst heq
          cases hj.symm.trans hi
          omega
        · have := stop_lt hj hi hgt
          omega
      · exact Or.inr ⟨hx, hextra⟩
    · rintro ((rfl | hx) | ⟨hx, hextra⟩)
      · exact ⟨by omega, Or.inl rfl⟩
      · obtain ⟨-, hxa, hin⟩ := hbefore hx
        exact ⟨hxa, Or.inr (Or.inl ⟨by omega, hin⟩)⟩
      · exact ⟨hx, Or.inr (Or.inr hextra)⟩
  have hdisjoint : Disjoint (insert 0 (f.stops D k)) ((Finset.range a).filter (f.Extra D)) := by
    refine Finset.disjoint_left.mpr fun x hx hextra => ?_
    obtain ⟨-, hpos', -, -, hno⟩ := Finset.mem_filter.mp hextra
    obtain rfl | hx := Finset.mem_insert.mp hx
    · exact Nat.lt_irrefl 0 hpos'
    · obtain ⟨-, -, j', hj', heq⟩ := hbefore hx
      exact hno j' hj' heq
  have hzero : 0 ∉ f.stops D k := fun hx => Nat.lt_irrefl 0 (hbefore hx).1
  unfold rank
  rw [Nat.count_eq_card_filter_range, hsplit, Finset.card_union_of_disjoint hdisjoint,
    Finset.card_insert_of_notMem hzero, card_stops (Nat.le_of_lt hk)]

/-- The entry for the target is right where the target is met. -/
theorem leads_jmp_iff (hsize : 0 < f.size) {cps : List CodePath} (hp : f.Placed D cps) {j : Jump}
    (hj : j ∈ f.jumps D) :
    f.Leads cps (if f.Reached j.jmp then .path (f.rank D (j.jmp - f.addr)) else .null) j.target ↔
      f.TargetMet j := by
  unfold TargetMet Leads
  by_cases hr : f.Reached j.jmp
  · rw [if_pos hr]
    obtain ⟨cp, hcp, hat⟩ := hp.get hsize (leader_jmp hj hr)
    have haddr : f.addr + (j.jmp - f.addr) = j.jmp := by
      unfold Reached at hr
      omega
    rw [haddr] at hat
    constructor
    · rintro (⟨k, cp', hk, hcp', hat'⟩ | ⟨hk, -⟩)
      · cases hk
        cases hcp.symm.trans hcp'
        exact Or.inl ⟨Option.some.inj (hat.symm.trans hat'), hr⟩
      · cases hk
    · rintro (⟨heq, -⟩ | ⟨-, hno⟩)
      · exact Or.inl ⟨_, cp, rfl, hcp, heq ▸ hat⟩
      · exact absurd hr hno
  · rw [if_neg hr]
    constructor
    · rintro (⟨k, cp', hk, -⟩ | ⟨-, hno⟩)
      · cases hk
      · exact Or.inr ⟨hno, hr⟩
    · rintro (⟨-, hr'⟩ | ⟨hno, -⟩)
      · exact absurd hr' hr
      · exact Or.inr ⟨rfl, hno⟩

/-- Behind a jump that the function does not go on behind there is none. -/
theorem last_of_stop {k : Nat} {j : Jump} (hj : (f.jumps D)[k]? = some j) (h : f.size ≤ j.stop) :
    (f.jumps D).length = k + 1 := by
  have hk := (List.getElem?_eq_some_iff.mp hj).1
  by_contra hne
  have hnext : (f.jumps D)[k + 1]? = some (f.jumps D)[k + 1] :=
    List.getElem?_eq_getElem (by omega)
  have hle := jump_lt hj hnext (Nat.lt_succ_self k)
  have hpos := (jump_bounds (List.getElem_mem (by omega : k + 1 < (f.jumps D).length))).2
  omega

theorem extra_card_zero {a : Nat} :
    ((Finset.range a).filter (f.Extra D)).card = 0 ↔ ∀ x, f.Extra D x → a ≤ x := by
  rw [Finset.card_eq_zero, Finset.filter_eq_empty_iff]
  constructor
  · intro h x hx
    by_contra hno
    exact h (Finset.mem_range.mpr (Nat.not_le.mp hno)) hx
  · intro h x hx hextra
    exact absurd (h x hextra) (Nat.not_le.mpr (Finset.mem_range.mp hx))

theorem extra_card_one {a : Nat} : ((Finset.range (a + 1)).filter (f.Extra D)).card = 1 ↔
    ∃ x, f.Extra D x ∧ x ≤ a ∧ ∀ y, f.Extra D y → y ≤ a → y = x := by
  rw [Finset.card_eq_one]
  constructor
  · rintro ⟨x, hx⟩
    have hmem : x ∈ (Finset.range (a + 1)).filter (f.Extra D) := hx ▸ Finset.mem_singleton_self x
    obtain ⟨hlt, hextra⟩ := Finset.mem_filter.mp hmem
    refine ⟨x, hextra, Nat.le_of_lt_succ (Finset.mem_range.mp hlt), fun y hy hle => ?_⟩
    have hin : y ∈ (Finset.range (a + 1)).filter (f.Extra D) :=
      Finset.mem_filter.mpr ⟨Finset.mem_range.mpr (Nat.lt_succ_of_le hle), hy⟩
    rw [hx] at hin
    exact Finset.mem_singleton.mp hin
  · rintro ⟨x, hextra, hle, hone⟩
    refine ⟨x, ?_⟩
    ext y
    rw [Finset.mem_filter, Finset.mem_range, Finset.mem_singleton]
    constructor
    · rintro ⟨hlt, hy⟩
      exact hone y hy (Nat.le_of_lt_succ hlt)
    · rintro rfl
      exact ⟨Nat.lt_succ_of_le hle, hextra⟩

/-- **A jump that ends its code path is met.** -/
theorem jumpMet_of_right (hsize : 0 < f.size) {cps : List CodePath} (hp : f.Placed D cps)
    (hroom : (f.jumps D).length < f.rank D f.size)
    (hfinal : ∀ (k : Nat) (cp : CodePath), cps[k]? = some cp → Final D f k cp) {k : Nat} {j : Jump}
    (hj : (f.jumps D)[k]? = some j) (hright : f.JumpRight cps j) : f.JumpMet D j := by
  obtain ⟨b, cp, hin, hcp, hhead, p, q, hnext, hp', hq⟩ := hright
  have hjmem := List.mem_of_getElem? hj
  obtain ⟨hpos, hlt⟩ := jump_bounds hjmem
  have hb := (inCp_iff hsize hp hlt).mp hin
  rw [rank_between hsize hj (Nat.lt_add_one j.pos) hpos hlt] at hb
  obtain ⟨hjump, hlast, hbehind⟩ := hfinal b cp hcp
  unfold JumpMet
  obtain hbk | hbk := Nat.eq_or_lt_of_le (show k ≤ b by omega)
  · -- The code path has the number of the jump.
    subst hbk
    obtain ⟨-, hnext'⟩ := hjump j hj
    rw [hnext] at hnext'
    obtain ⟨rfl, rfl⟩ : p = _ ∧ q = _ := by
      simpa only [List.cons.injEq, and_true] using hnext'
    have htarget := (leads_jmp_iff hsize hp hjmem).mp hq
    by_cases hstop : j.stop < f.size
    · have hreach : f.Reached (f.addr + j.stop) := by
        unfold Reached
        omega
      rw [if_pos hstop]
      rw [if_pos hreach] at hp'
      obtain ⟨k', cp', hk', hcp', hat⟩ | ⟨hnull, -⟩ := hp'
      · cases hk'
        obtain ⟨-, hrank⟩ := hp.rank_of hcp' hat
        rw [rank_between hsize hj hpos (Nat.le_refl _) (Nat.le_of_lt hstop)] at hrank
        exact ⟨extra_card_zero.mp (by omega), htarget⟩
      · cases hnull
    · rw [if_neg hstop]
      have hend := last_of_stop hj (Nat.not_lt.mp hstop)
      rw [rank_between hsize hj hlt (Nat.not_lt.mp hstop) (Nat.le_refl _)] at hroom
      refine Or.inl ⟨fun x hx => (extra_card_zero (a := j.pos + 1)).mp (by omega) x hx, ?_, htarget⟩
      obtain ⟨x, hx⟩ := Finset.card_pos.mp
        (by omega : 0 < ((Finset.range f.size).filter (f.Extra D)).card)
      exact ⟨x, (Finset.mem_filter.mp hx).2⟩
  · -- It is the one that the last instruction is written to.
    obtain hbm | hbm | hbm := Nat.lt_trichotomy b (f.jumps D).length
    · obtain ⟨hhead', -⟩ := hjump _ (List.getElem?_eq_getElem hbm)
      have hle := jump_lt hj (List.getElem?_eq_getElem hbm) hbk
      have := Option.some.inj (hhead.symm.trans hhead')
      omega
    · obtain ⟨-, hnext'⟩ := hlast hbm
      rw [hnext] at hnext'
      cases hnext'
      have hout : ¬ f.Inside (f.addr + j.stop) := by
        obtain ⟨k', -, hk', -⟩ | ⟨-, hno⟩ := hp'
        · cases hk'
        · exact hno
      have hout' : ¬ f.Inside j.target := by
        obtain ⟨k', -, hk', -⟩ | ⟨-, hno⟩ := hq
        · cases hk'
        · exact hno
      have hstop : ¬ j.stop < f.size := fun h => hout (by unfold Inside; omega)
      have hend := last_of_stop hj (Nat.not_lt.mp hstop)
      rw [if_neg hstop]
      exact Or.inr ⟨extra_card_one.mp (by omega), hout'⟩
    · rw [hbehind hbm] at hhead
      cases hhead

/-- **A jump that is met ends its code path.** -/
theorem jumpRight_of_met (hsize : 0 < f.size) {cps : List CodePath} (hp : f.Placed D cps)
    (hfinal : ∀ (k : Nat) (cp : CodePath), cps[k]? = some cp → Final D f k cp) {k : Nat} {j : Jump}
    (hj : (f.jumps D)[k]? = some j) (hmet : f.JumpMet D j) : f.JumpRight cps j := by
  have hjmem := List.mem_of_getElem? hj
  obtain ⟨hpos, hlt⟩ := jump_bounds hjmem
  have hrank := rank_between hsize hj (Nat.lt_add_one j.pos) hpos hlt
  have hsome : ∀ b, b + 1 = f.rank D (j.pos + 1) → ∃ cp, cps[b]? = some cp := fun b hb => by
    have hle : f.rank D (j.pos + 1) ≤ f.rank D f.size := rank_mono (by omega)
    exact ⟨_, List.getElem?_eq_getElem (by rw [hp.1]; omega)⟩
  -- The code path has the number of the jump if no extra one starts before.
  have hown : (∀ x, f.Extra D x → j.pos < x) →
      f.Leads cps (if f.Reached (f.addr + j.stop) then .path (k + 1) else .null) (f.addr + j.stop) →
      f.TargetMet j → f.JumpRight cps j := fun hno hnext htarget => by
    rw [extra_card_zero.mpr fun x hx => hno x hx] at hrank
    obtain ⟨cp, hcp⟩ := hsome k (by omega)
    obtain ⟨hhead, hcpnext⟩ := (hfinal k cp hcp).jump j hj
    exact ⟨k, cp, (inCp_iff hsize hp hlt).mpr (by omega), hcp, hhead, _, _, hcpnext, hnext,
      (leads_jmp_iff hsize hp hjmem).mpr htarget⟩
  unfold JumpMet at hmet
  by_cases hstop : j.stop < f.size
  · rw [if_pos hstop] at hmet
    obtain ⟨hno, htarget⟩ := hmet
    have hreach : f.Reached (f.addr + j.stop) := by
      unfold Reached
      omega
    refine hown (fun x hx => Nat.lt_of_lt_of_le hpos (hno x hx)) ?_ htarget
    rw [if_pos hreach]
    obtain ⟨cp, hcp, hat⟩ := hp.get hsize (leader_stop hjmem hstop)
    rw [rank_between hsize hj hpos (Nat.le_refl _) (Nat.le_of_lt hstop), extra_card_zero.mpr hno]
      at hcp
    exact Or.inl ⟨k + 1, cp, rfl, hcp, hat⟩
  · rw [if_neg hstop] at hmet
    have hout : ¬ f.Inside (f.addr + j.stop) := by
      unfold Inside
      omega
    obtain ⟨hno, -, htarget⟩ | ⟨hone, htarget⟩ := hmet
    · have hreach : ¬ f.Reached (f.addr + j.stop) := by
        unfold Reached
        omega
      refine hown hno ?_ htarget
      rw [if_neg hreach]
      exact Or.inr ⟨rfl, hout⟩
    · have hend := last_of_stop hj (Nat.not_lt.mp hstop)
      rw [extra_card_one.mpr hone] at hrank
      obtain ⟨cp, hcp⟩ := hsome (k + 1) (by omega)
      obtain ⟨hhead, hnext⟩ := (hfinal (k + 1) cp hcp).last hend.symm
      rw [lastFrom_eq hjmem (Nat.not_lt.mp hstop)] at hhead
      exact ⟨k + 1, cp, (inCp_iff hsize hp hlt).mpr (by omega), hcp, hhead, _, _, hnext,
        Or.inr ⟨rfl, hout⟩, Or.inr ⟨rfl, htarget⟩⟩

/-- If all jumps are met, there is room for the last write. -/
theorem room_of_met (hsize : 0 < f.size) (hmet : ∀ j ∈ f.jumps D, f.JumpMet D j) :
    (f.jumps D).length < f.rank D f.size := by
  obtain hzero | hpos := Nat.eq_zero_or_pos (f.jumps D).length
  · have := rank_lt hsize (Or.inl rfl : f.Leader D 0) hsize
    omega
  · have hj : (f.jumps D)[(f.jumps D).length - 1]? = some (f.jumps D)[(f.jumps D).length - 1] :=
      List.getElem?_eq_getElem (by omega)
    generalize (f.jumps D)[(f.jumps D).length - 1] = j at hj
    have hjmem := List.mem_of_getElem? hj
    obtain ⟨-, hlt⟩ := jump_bounds hjmem
    by_cases hstop : j.stop < f.size
    · have := (le_rank_size hsize hj).2 hstop
      omega
    · have hextra : ∃ x, f.Extra D x := by
        have h := hmet j hjmem
        unfold JumpMet at h
        rw [if_neg hstop] at h
        obtain ⟨-, hx, -⟩ | ⟨⟨x, hx, -⟩, -⟩ := h
        · exact hx
        · exact ⟨x, hx⟩
      obtain ⟨x, hx⟩ := hextra
      rw [rank_between hsize hj hlt (Nat.not_lt.mp hstop) (Nat.le_refl _)]
      have hcard : 0 < ((Finset.range f.size).filter (f.Extra D)).card :=
        Finset.card_pos.mpr ⟨x, Finset.mem_filter.mpr ⟨Finset.mem_range.mpr hx.2.1, hx⟩⟩
      omega

end AsmFunc

variable (D f)

/-- **For every list of instructions** all accesses are in `cps` and each conditional jump ends its
    code path as it should exactly where all jumps are met. -/
theorem getFuncDetail_exact :
    (∃ cps, getFuncDetail D f = some cps ∧ ∀ j ∈ f.jumps D, f.JumpRight cps j) ↔
      ∀ j ∈ f.jumps D, f.JumpMet D j := by
  obtain hzero | hsize := Nat.eq_zero_or_pos f.size
  · have hnone : ∀ j, j ∉ f.jumps D := fun j hj => by
      have := (AsmFunc.jump_bounds hj).2
      omega
    exact iff_of_true ⟨[], if_pos hzero, fun j hj => absurd hj (hnone j)⟩
      fun j hj => absurd hj (hnone j)
  · obtain ⟨hsome, hspec⟩ := AsmFunc.getFuncDetail_spec (D := D) hsize
    constructor
    · rintro ⟨cps, hcps, hright⟩ j hj
      obtain ⟨hroom, hp, hfinal⟩ := hspec cps hcps
      obtain ⟨k, hk⟩ := List.mem_iff_getElem?.mp hj
      exact AsmFunc.jumpMet_of_right hsize hp hroom hfinal hk (hright j hj)
    · intro hmet
      obtain ⟨cps, hcps⟩ := hsome (AsmFunc.room_of_met hsize hmet)
      obtain ⟨-, hp, hfinal⟩ := hspec cps hcps
      refine ⟨cps, hcps, fun j hj => ?_⟩
      obtain ⟨k, hk⟩ := List.mem_iff_getElem?.mp hj
      exact AsmFunc.jumpRight_of_met hsize hp hfinal hk (hmet j hj)

/-! ## An `if` in front of another -/

/-- A bitmap as the list of its bits. -/
def listBitmap : ClibBitmap where
  Bm := List Bool
  clibBitmapCreate n := List.replicate n false
  clibBitmapSet bm i := (bm.set i true, bm.getD i false)
  clibBitmapNonzero bm start :=
    (List.range bm.length).find? fun i => decide (start ≤ i) && bm.getD i false
  size := List.length
  bit bm i := bm.getD i false
  size_create n := List.length_replicate
  bit_create n i := by
    rw [List.getD_eq_getElem?_getD, List.getElem?_replicate]
    split <;> rfl
  size_set bm i := List.length_set
  bit_set bm i j hi := by
    simp only [List.getD_eq_getElem?_getD]
    by_cases hij : i = j
    · subst hij
      rw [List.getElem?_set_self hi, decide_eq_true rfl]
      rfl
    · rw [List.getElem?_set_ne hij, decide_eq_false (Ne.symm hij), Bool.false_or]
  old_set bm i hi := rfl
  nonzero_some bm start i h := by
    obtain ⟨hi, -, hbefore⟩ := List.find?_range_eq_some.mp h
    rw [Bool.and_eq_true, decide_eq_true_eq] at hi
    refine ⟨hi.1, hi.2, fun j hj hji => ?_⟩
    have hno := hbefore j hji
    rwa [decide_eq_true hj, Bool.true_and, Bool.not_eq_true'] at hno
  nonzero_none bm start h i hstart hi := by
    have hno := List.find?_eq_none.mp h i (List.mem_range.mpr hi)
    rwa [decide_eq_true hstart, Bool.true_and, Bool.not_eq_true] at hno

/-- In the decoder `insn_byte_t` is `unsigned char`. -/
def listLibs : AsmLibs := ⟨listBitmap, false⟩

/-- `je` over an instruction, and `ret`. -/
def oneJump : AsmFunc where
  addr := 0x1000
  size := 4
  insns := [⟨2, [0x74], [1]⟩, ⟨1, [0x90], []⟩, ⟨1, [0xc3], []⟩]
  length_pos := by decide
  fits := by decide

theorem oneJump_jumps : oneJump.jumps listLibs = [⟨0, 2, 0x1003, 0x1003⟩] := by
  decide

/-- The jump over an instruction ends its code path. -/
theorem getFuncDetail_exact_oneJump : ∃ cps, getFuncDetail listLibs oneJump = some cps ∧
    ∀ j ∈ oneJump.jumps listLibs, oneJump.JumpRight cps j := by
  refine (getFuncDetail_exact listLibs oneJump).mpr fun j hj => ?_
  rw [oneJump_jumps] at hj
  obtain rfl := List.mem_singleton.mp hj
  refine ⟨fun x hx => ?_, Or.inl ⟨rfl, by decide⟩⟩
  obtain ⟨-, -, ⟨j, hj, hjmp⟩, -⟩ := hx
  rw [oneJump_jumps] at hj
  obtain rfl := List.mem_singleton.mp hj
  change 0x1003 = 0x1000 + x at hjmp
  show 2 ≤ x
  omega

/-- `je` over an instruction, another instruction, `jne` and `ret`. -/
def forwardJumps : AsmFunc where
  addr := 0x1000
  size := 7
  insns := [⟨2, [0x74], [1]⟩, ⟨1, [0x90], []⟩, ⟨1, [0x90], []⟩, ⟨2, [0x75], [0]⟩, ⟨1, [0xc3], []⟩]
  length_pos := by decide
  fits := by decide

theorem forwardJumps_jumps : forwardJumps.jumps listLibs =
    [⟨0, 2, 0x1003, 0x1003⟩, ⟨4, 6, 0x1006, 0x1006⟩] := by
  decide

/-- The second jump is in the code path that starts at the target of the first one, but is given
    the one before. -/
theorem second_jump_misplaced : ¬ ∃ cps, getFuncDetail listLibs forwardJumps = some cps ∧
    ∀ j ∈ forwardJumps.jumps listLibs, forwardJumps.JumpRight cps j := by
  rw [getFuncDetail_exact, forwardJumps_jumps]
  intro h
  have hmet := h ⟨4, 6, 0x1006, 0x1006⟩ (by decide)
  have hextra : forwardJumps.Extra listLibs 3 := by
    unfold AsmFunc.Extra
    rw [forwardJumps_jumps]
    decide
  unfold AsmFunc.JumpMet at hmet
  rw [if_pos (by decide)] at hmet
  exact absurd (hmet.1 3 hextra) (by decide)

end Srcinv.Analysis
