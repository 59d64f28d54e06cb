import Mathlib.Algebra.Order.Ring.Int

/-!
# Data shared by the collector and the analysis

The parts of `include/si_core.h` that several components use: the build constants, the kind
of a file (`struct si_type`), the phases, and the rounding helpers of clib.  clib is a
separate repository, so its rounding is a parameter that carries the facts its name promises.
-/

namespace Srcinv

def PAGE_SIZE : Nat := 4096

def PATH_MAX : Nat := 4096

def MAX_SIZE_PER_FILE : Nat := 0x8000000

def MAX_OBJS_PER_FILE : Nat := 0x800000

def RESFILE_BUF_START : Nat := 0x1000000000

/-- `clib_round_up` / `clib_round_down` to `PAGE_SIZE`. -/
structure Rounding where
  up : Nat → Nat
  down : Nat → Nat
  le_up : ∀ n, n ≤ up n
  up_lt : ∀ n, up n < n + PAGE_SIZE
  down_le : ∀ n, down n ≤ n

/-- Rounding to multiples of the page size. -/
def Rounding.page : Rounding where
  up n := (n + (PAGE_SIZE - 1)) / PAGE_SIZE * PAGE_SIZE
  down n := n / PAGE_SIZE * PAGE_SIZE
  le_up n := by simp only [PAGE_SIZE]; omega
  up_lt n := by simp only [PAGE_SIZE]; omega
  down_le n := by simp only [PAGE_SIZE]; omega

/-- `struct si_type`: what kind of file this is. -/
structure SiType where
  binary : Nat
  kernel : Nat
  osType : Nat
  dataFmt : Nat
  deriving DecidableEq, Repr

def SI_TYPE_SRC : Nat := 1
def SI_TYPE_KERN : Nat := 1
def SI_TYPE_USER : Nat := 2
def SI_TYPE_OS_LINUX : Nat := 1
def SI_TYPE_OS_ANY : Nat := 15
def SI_TYPE_DF_GIMPLE : Nat := 1
def SI_TYPE_DF_ASM : Nat := 2
def SI_TYPE_DF_ANY : Nat := 0xff

/-- `si_type_match`. -/
def siTypeMatch (wider smaller : SiType) : Bool :=
  if wider.binary &&& smaller.binary = 0 then false
  else if wider.kernel &&& smaller.kernel = 0 then false
  else if wider.osType ≠ SI_TYPE_OS_ANY ∧ wider.osType ≠ smaller.osType then false
  else if wider.dataFmt ≠ SI_TYPE_DF_ANY ∧ wider.dataFmt ≠ smaller.dataFmt then false
  else true

/-- The phases `STEP1` (`MODE_ADJUST`) to `STEP6` (`MODE_GETINDCFG2`). -/
inductive Phase where
  | adjust
  | getbase
  | getdetail
  | getstep4
  | getindcfg1
  | getindcfg2
  deriving DecidableEq, Repr

/-- The mode number that a phase is passed around as. -/
def Phase.mode : Phase → Nat
  | .adjust => 1
  | .getbase => 2
  | .getdetail => 3
  | .getstep4 => 4
  | .getindcfg1 => 5
  | .getindcfg2 => 6

theorem Phase.mode_pos (p : Phase) : 1 ≤ p.mode := by
  cases p <;> decide

end Srcinv
