import Srcinv.Analysis.AssignAlias
import Srcinv.Analysis.SsaReads

/-!
# Pointer arithmetic (`POINTER_PLUS_EXPR` and `POINTER_DIFF_EXPR`)

An address keeps its offset in bits.  Adding a count of bytes multiplies by 8; the difference of two
addresses is one of offsets, and is stored as it is.

* `pointerPlus_plus` — counts that are added in turn add up.
* `pointer_laws_exact` — a difference undoes an addition of nothing only.
-/

namespace Srcinv.Analysis

open Srcinv.Lib

/-! ## Offsets -/

/-- An address that is moved by a count of bytes. -/
def DataStateValRef.moved (v2 : DataStateValRef) (n : Int) : DataStateValRef :=
  { v2 with offset := s32 (v2.offset + n * BITS_PER_UNIT) }

theorem DataStateValRef.moved_moved (v2 : DataStateValRef) (n m : Int) :
    (v2.moved n).moved m = v2.moved (n + m) := by
  unfold DataStateValRef.moved
  dsimp only
  rw [s32_add, Int.add_mul, Int.add_assoc]

/-- A count in the bytes of `sizetype` moves an address by itself, with or without a sign. -/
theorem DataStateValRef.plus_spell (A : AssignEnv) (v2 : DataStateValRef) (n : Int) :
    v2.plus A (spell 8 n) = v2.moved n := by
  unfold DataStateValRef.plus DataStateValRef.moved
  have hnat : (A.mem.toU64 (spell 8 n) : Int) = n % 2 ^ 64 := by
    rw [A.mem.toU64_eq]
    have hspell := bytesNat_spell 8 n
    push_cast
    rw [hspell]
    omega
  rw [hnat]
  have hdvd : (2 : Int) ^ 32 ∣ v2.offset + n % 2 ^ 64 * BITS_PER_UNIT -
      (v2.offset + n * BITS_PER_UNIT) := by
    have hunit : (BITS_PER_UNIT : Int) = 8 := rfl
    rw [hunit]
    omega
  rw [s32_of_dvd hdvd]

/-! ## The statements -/

variable (A : AssignEnv) (E : DataEnv) (rand : Nat → List Nat → Nat)

/-- `q = p + c` -/
def plusStmt (q p c : Nat) : AssignStmt := ⟨.pointerPlus, q, p, some c, false, 8, none⟩

/-- `d = q - p`, a number of `bytes` bytes. -/
def diffStmt (bytes d q p : Nat) : AssignStmt := ⟨.pointerDiff, d, q, some p, false, bytes, none⟩

/-- A pointer that is an address, or null. -/
def DataStateVal.isPointer : DataStateVal → Bool
  | .sec2 _ .addr _ => true
  | .sec1 _ .intCst _ => true
  | _ => false

/-- A count of bytes in `sizetype`. -/
def Counts (n : Int) (v : DataStateVal) : Prop :=
  ∃ raw, v = .sec1 raw .intCst (spell 8 n) ∧ (A.ext raw).signed = false

theorem isPointer_get {v : DataStateVal} (hv : v.isPointer = true) :
    v.isScalar = true ∧ v.isUnset = false := by
  cases v with
  | sec1 raw type v1 => exact ⟨rfl, rfl⟩
  | sec2 raw type v2 =>
    cases type with
    | addr => exact ⟨rfl, rfl⟩
    | ref => cases hv
  | _ => cases hv

variable {A E rand} {h : DsHeap}

theorem getDsVal_pointer {x : Nat} (hx : (h x).isPointer = true) (rand : List Nat → Nat) :
    getDsVal E rand 1 h (dsVal x) 0 0 = some (h, some [dsVal x]) :=
  getDsVal_set (isPointer_get hx).1 (isPointer_get hx).2 rand 0 0 0

theorem dsvArgFind_one (h : DsHeap) (x : Nat) (type : DsvType) :
    dsvArgFind h [dsVal x] type = if (h x).type = type then some (dsVal x) else none := by
  unfold dsvArgFind
  rw [List.find?_cons, get?_dsVal h rfl, Option.map_some]
  by_cases htype : (h x).type = type
  · simp [dsVal, htype]
  · simp [dsVal, htype]

/-- An address may be one of its own place. -/
theorem dsVrefHoldSetv_addr {t : DsvLoc} {raw : Nat} {v2 : DataStateValRef}
    (hget : h.get? t = some (.sec2 raw .addr v2)) (ds : Option Nat) (offset : Int) (bits : Nat) :
    dsVrefHoldSetv h t ds offset bits =
      some (h.set t (.sec2 raw .addr ⟨ds, offset, bits⟩), false) := by
  unfold dsVrefHoldSetv
  rw [hget]
  exact if_neg fun hself => Sec2.noConfusion hself.1

/-- The pointer of a data state is found, whichever type it has. -/
theorem find_pointer {x : Nat} (hx : (h x).isPointer = true) :
    (dsvArgFind h [dsVal x] .addr).or (dsvArgFind h [dsVal x] .intCst) = some (dsVal x) := by
  rw [dsvArgFind_one, dsvArgFind_one]
  cases hv : h x with
  | sec1 raw type v1 =>
    rw [hv] at hx
    cases type with
    | intCst => rfl
    | realCst => cases hx
  | sec2 raw type v2 =>
    rw [hv] at hx
    cases type with
    | addr => rfl
    | ref => cases hx
  | _ =>
    rw [hv] at hx
    cases hx

variable (E) (rand)

/-- The operands of a statement on pointers and numbers stand for themselves. -/
theorem assignArgs_pointers {st : AssignStmt} {c : Nat} (hl : (h st.lhs).isPointer = true)
    (h1 : (h st.rhs1).isPointer = true) (hst : st.rhs2 = some c) (h2 : (h c).isPointer = true) :
    assignArgs st h E rand 1 =
      some (h, some ⟨[dsVal st.lhs], [dsVal st.rhs1], [dsVal c]⟩) := by
  unfold assignArgs
  rw [getDsVal_pointer hl]
  dsimp only
  rw [getDsVal_pointer h1, hst]
  dsimp only
  rw [getDsVal_pointer h2]
  rfl

/-- A count has no sign to extend. -/
theorem dsvExtend_count {c rawc : Nat} {bytes : List Nat} (hc : h c = .sec1 rawc .intCst bytes)
    (hsign : (A.ext rawc).signed = false) : dsvExtend A h (dsVal c) = h := by
  have hbytes : extendBytes (A.ext rawc) bytes = bytes := by
    unfold extendBytes
    rw [if_neg fun hset => by rw [hsign] at hset; exact Bool.false_ne_true hset.1]
  unfold dsvExtend
  rw [get?_dsVal h rfl]
  dsimp only [dsVal]
  rw [hc]
  dsimp only
  rw [hbytes, ← hc]
  exact (set_dsVal h rfl _).trans (Function.update_eq_self c h)

/-- An address is stored in a data state. -/
theorem storeRef_addr (h : DsHeap) (q : Nat) (v2 : DataStateValRef) :
    storeRef h (dsVal q) .addr v2 =
      some (.ok (Function.update h q (.sec2 (h q).raw .addr v2)) (some (dsVal q))) := by
  have halloc : dsvAllocData h (dsVal q) (.sec2 .addr) =
      some (Function.update h q (.sec2 (h q).raw .addr ⟨none, 0, 0⟩)) := by
    unfold dsvAllocData
    rw [get?_dsVal h rfl, Option.map_some, set_dsVal h rfl]
    rfl
  have hget : DsHeap.get? (Function.update h q (.sec2 (h q).raw .addr ⟨none, 0, 0⟩)) (dsVal q) =
      some (.sec2 (h q).raw .addr ⟨none, 0, 0⟩) :=
    (get?_dsVal _ rfl).trans (congrArg some (Function.update_self ..))
  unfold storeRef
  rw [halloc]
  dsimp only
  rw [dsVrefHoldSetv_addr hget, set_dsVal _ rfl]
  dsimp only [copyRes, dsVal]
  rw [Function.update_idem]

/-- The case of an address and a count. -/
theorem assignCase_plus {q p c raw rawc : Nat} {v2 : DataStateValRef} {bytes : List Nat}
    (hp : h p = .sec2 raw .addr v2) (hc : h c = .sec1 rawc .intCst bytes)
    (hsign : (A.ext rawc).signed = false) (hq : (h q).isPointer = true) (hne : q ≠ p) :
    assignCase A (plusStmt q p c) ⟨[dsVal q], [dsVal p], [dsVal c]⟩ h =
      storeRef h (dsVal q) .addr (v2.plus A bytes) := by
  have hfind : dsvArgFind h [dsVal c] .intCst = some (dsVal c) := by
    rw [dsvArgFind_one, hc]
    rfl
  have hat : bytesAt h (dsVal c) = some bytes := by
    unfold bytesAt
    rw [get?_dsVal h rfl]
    dsimp only [dsVal]
    rw [hc]
    rfl
  have hne' : dsVal q ≠ dsVal p := fun heq => hne (congrArg DsvLoc.ds heq)
  have htoo : (plusStmt q p c).tooMany = false := rfl
  unfold assignCase
  rw [htoo, if_neg Bool.false_ne_true]
  unfold plusStmt casePointerPlus
  dsimp only
  rw [hfind]
  dsimp only
  rw [dsvExtend_count hc hsign, find_pointer (by rw [hp]; rfl), find_pointer hq, hat]
  dsimp only
  rw [get?_dsVal h rfl]
  dsimp only [dsVal]
  rw [hp]
  dsimp only
  exact if_neg hne'

/-- `q = p + c` of an address and a count. -/
theorem decAssign_plus {q p c : Nat} {raw : Nat} {v2 : DataStateValRef} {n : Int}
    (hp : h p = .sec2 raw .addr v2) (hc : Counts A n (h c)) (hq : (h q).isPointer = true)
    (hne : q ≠ p) :
    ∃ raw', decAssign A (plusStmt q p c) h E rand 1 =
      some (.ok (Function.update h q (.sec2 raw' .addr (v2.moved n))) (some (dsVal q))) := by
  obtain ⟨rawc, hcv, hsign⟩ := hc
  have hargs : assignArgs (plusStmt q p c) h E rand 1 =
      some (h, some ⟨[dsVal q], [dsVal p], [dsVal c]⟩) :=
    assignArgs_pointers E rand hq (by rw [show (plusStmt q p c).rhs1 = p from rfl, hp]; rfl) rfl
      (by rw [hcv]; rfl)
  refine ⟨(h q).raw, ?_⟩
  unfold decAssign
  rw [hargs]
  dsimp only
  rw [assignCase_plus hp hcv hsign hq hne, v2.plus_spell, storeRef_addr]

/-- The case of two addresses in one data state. -/
theorem assignCase_diff {d q p : Nat} {raw raw' rawd : Nat} {v2 w2 : DataStateValRef}
    {bytes : List Nat} (hq : h q = .sec2 raw .addr v2) (hp : h p = .sec2 raw' .addr w2)
    (hd : h d = .sec1 rawd .intCst bytes) (hds : v2.ds = w2.ds) (k : Nat) :
    assignCase A (diffStmt k d q p) ⟨[dsVal d], [dsVal q], [dsVal p]⟩ h =
      (storeInt h (dsVal d) k (A.mem.copy k (spell 8 (s32 (v2.offset - w2.offset))))).map fun h =>
        .ok h (some (dsVal d)) := by
  have htoo : (diffStmt k d q p).tooMany = false := rfl
  have hfd : dsvArgFind h [dsVal d] .intCst = some (dsVal d) := by
    rw [dsvArgFind_one, hd]
    rfl
  have hfq : dsvArgFind h [dsVal q] .addr = some (dsVal q) := by
    rw [dsvArgFind_one, hq]
    rfl
  have hfp : dsvArgFind h [dsVal p] .addr = some (dsVal p) := by
    rw [dsvArgFind_one, hp]
    rfl
  unfold assignCase
  rw [htoo, if_neg Bool.false_ne_true]
  unfold diffStmt casePointerDiff
  dsimp only
  rw [hfd, hfq, hfp]
  dsimp only
  rw [get?_dsVal h rfl, get?_dsVal h rfl]
  dsimp only [dsVal]
  rw [hq, hp]
  dsimp only
  rw [if_neg fun hno => hno hds]

/-- `d = q - p` of two addresses in one data state. -/
theorem decAssign_diff {d q p : Nat} {raw raw' rawd : Nat} {v2 w2 : DataStateValRef}
    {bytes : List Nat} (hq : h q = .sec2 raw .addr v2) (hp : h p = .sec2 raw' .addr w2)
    (hd : h d = .sec1 rawd .intCst bytes) (hds : v2.ds = w2.ds) {k : Nat} (hk : 0 < k) :
    decAssign A (diffStmt k d q p) h E rand 1 =
      some (.ok (Function.update h d (.sec1 rawd .intCst
        (A.mem.copy k (spell 8 (s32 (v2.offset - w2.offset)))))) (some (dsVal d))) := by
  have hargs : assignArgs (diffStmt k d q p) h E rand 1 =
      some (h, some ⟨[dsVal d], [dsVal q], [dsVal p]⟩) :=
    assignArgs_pointers E rand (by rw [show (diffStmt k d q p).lhs = d from rfl, hd]; rfl)
      (by rw [show (diffStmt k d q p).rhs1 = q from rfl, hq]; rfl) rfl (by rw [hp]; rfl)
  have hget : h.get? (dsVal d) = some (.sec1 rawd .intCst bytes) :=
    (get?_dsVal h rfl).trans (congrArg some hd)
  have hzero : DsHeap.get? (Function.update h d (.sec1 rawd .intCst (List.replicate k 0)))
      (dsVal d) = some (.sec1 rawd .intCst (List.replicate k 0)) :=
    (get?_dsVal _ rfl).trans (congrArg some (Function.update_self ..))
  unfold decAssign
  rw [hargs]
  dsimp only
  rw [assignCase_diff hq hp hd hds]
  unfold storeInt
  rw [allocInt_eq hget hk, set_dsVal h rfl]
  rw [Option.bind_some]
  have hwrite := writeBytes_eq hzero (A.mem.copy k (spell 8 (s32 (v2.offset - w2.offset))))
  rw [set_dsVal _ rfl] at hwrite
  refine (congrArg (Option.map fun h => AssignRes.ok h (some (dsVal d))) hwrite).trans ?_
  dsimp only [dsVal, Option.map_some]
  rw [Function.update_idem]

/-! ## The laws -/

/-- The data states of three pointers that are assigned, of the three counts, of the number that
    takes a difference, and of the pointer `p`. -/
structure PtrVars where
  p : Nat
  q : Nat
  r : Nat
  t : Nat
  d : Nat
  cn : Nat
  cm : Nat
  cs : Nat

variable (A) (h) (x : PtrVars)

/-- `p` is an address in a data state, the counts are `n`, `m` and their sum, and the data states
    are distinct. -/
structure PtrStates (v2 : DataStateValRef) (n m : Int) : Prop where
  addr : ∃ raw, h x.p = .sec2 raw .addr v2
  count_n : Counts A n (h x.cn)
  count_m : Counts A m (h x.cm)
  count_s : Counts A (n + m) (h x.cs)
  pointers : (h x.q).isPointer = true ∧ (h x.r).isPointer = true ∧ (h x.t).isPointer = true
  number : ∃ raw bytes, h x.d = .sec1 raw .intCst bytes
  distinct : [x.p, x.q, x.r, x.t, x.d, x.cn, x.cm, x.cs].Nodup

/-- `q = p + n; d = q - p` leaves `n` in `d`, as a number of `k` bytes with a sign. -/
def DiffInverts (n : Int) (k : Nat) : Prop :=
  ∃ h₁ h₂ raw bytes,
    decAssign A (plusStmt x.q x.p x.cn) h E rand 1 = some (.ok h₁ (some (dsVal x.q))) ∧
    decAssign A (diffStmt k x.d x.q x.p) h₁ E rand 1 = some (.ok h₂ (some (dsVal x.d))) ∧
    h₂ x.d = .sec1 raw .intCst bytes ∧ bytesInt true (8 * k) bytes = n

/-- `q = p + n; r = q + m; t = p + (n + m)` leaves one address in `r` and `t`. -/
def PlusAdds : Prop :=
  ∃ h₁ h₂ h₃ raw raw' v2,
    decAssign A (plusStmt x.q x.p x.cn) h E rand 1 = some (.ok h₁ (some (dsVal x.q))) ∧
    decAssign A (plusStmt x.r x.q x.cm) h₁ E rand 1 = some (.ok h₂ (some (dsVal x.r))) ∧
    decAssign A (plusStmt x.t x.p x.cs) h₂ E rand 1 = some (.ok h₃ (some (dsVal x.t))) ∧
    h₃ x.r = .sec2 raw .addr v2 ∧ h₃ x.t = .sec2 raw' .addr v2

/-- An addition is undone by the difference, and two additions are that of the sum. -/
def PointerLaws (n : Int) (k : Nat) : Prop := DiffInverts A E rand h x n k ∧ PlusAdds A E rand h x

variable {A h x} {v2 : DataStateValRef} {n m : Int}

/-- Two additions are that of the sum, modulo the range of an `s32`. -/
theorem pointerPlus_plus (hs : PtrStates A h x v2 n m) : PlusAdds A E rand h x := by
  obtain ⟨raw, hp⟩ := hs.addr
  have hdistinct := hs.distinct
  simp only [List.nodup_cons, List.mem_cons, List.not_mem_nil, or_false, not_or] at hdistinct
  obtain ⟨⟨hpq, hpr, hpt, -⟩, ⟨hqr, hqt, -, -, hqm, hqs⟩, ⟨hrt, -, -, -, hrs⟩, -⟩ := hdistinct
  obtain ⟨raw₁, h1⟩ := decAssign_plus E rand hp hs.count_n hs.pointers.1 (Ne.symm hpq)
  have hframe : ∀ y, y ≠ x.q → ∀ v, Function.update h x.q v y = h y :=
    fun y hy v => Function.update_of_ne hy v h
  have hq : Function.update h x.q (.sec2 raw₁ .addr (v2.moved n)) x.q =
      .sec2 raw₁ .addr (v2.moved n) := Function.update_self ..
  obtain ⟨raw₂, h2⟩ := decAssign_plus (A := A) E rand (q := x.r) hq
    (by rw [hframe x.cm (Ne.symm hqm)]; exact hs.count_m)
    (by rw [hframe x.r (Ne.symm hqr)]; exact hs.pointers.2.1) (Ne.symm hqr)
  have hframe' : ∀ y, y ≠ x.q → y ≠ x.r → ∀ v w,
      Function.update (Function.update h x.q v) x.r w y = h y := fun y hy hy' v w =>
    (Function.update_of_ne hy' w _).trans (hframe y hy v)
  have hp' := (hframe' x.p hpq hpr (.sec2 raw₁ .addr (v2.moved n))
    (.sec2 raw₂ .addr ((v2.moved n).moved m))).trans hp
  obtain ⟨raw₃, h3⟩ := decAssign_plus (A := A) E rand (q := x.t) hp'
    (by rw [hframe' x.cs (Ne.symm hqs) (Ne.symm hrs)]; exact hs.count_s)
    (by rw [hframe' x.t (Ne.symm hqt) (Ne.symm hrt)]; exact hs.pointers.2.2) (Ne.symm hpt)
  refine ⟨_, _, _, raw₂, raw₃, v2.moved (n + m), h1, h2, h3, ?_, Function.update_self ..⟩
  rw [Function.update_of_ne hrt, Function.update_self, v2.moved_moved]

/-- What a number of `k` bytes is that takes a difference. -/
theorem bytesInt_diff {k : Nat} (hk : k ≤ 8) (y : Int) :
    bytesInt true (8 * k) (A.mem.copy k (spell 8 y)) = y.bmod (2 ^ (8 * k)) := by
  have hcopy : A.mem.copy k (spell 8 y) = spell k y := by
    rw [A.mem.copy_eq, List.take_append, take_spell, length_spell]
    have hmin : min k 8 = k := by omega
    have hsub : k - 8 = 0 := by omega
    rw [hmin, hsub, List.take_zero, List.append_nil]
  rw [hcopy, bytesInt_spell]
  unfold wrap
  rw [if_pos rfl, Nat.min_self]

/-- Eight times a number is not that number, in no width of bytes. -/
theorem bmod_eight_eq_iff (k : Nat) (n : Int) :
    (n * 8).bmod (2 ^ (8 * k)) = n ↔ n = 0 := by
  constructor
  · intro heq
    have hdvd : ((2 ^ (8 * k) : Nat) : Int) ∣ n - n * 8 := by
      have hsub := Int.dvd_bmod_sub_self (x := n * 8) (m := 2 ^ (8 * k))
      rwa [heq] at hsub
    have hseven : 2 ^ (8 * k) ∣ 7 * n.natAbs := by
      have hmul : n - n * 8 = -7 * n := by omega
      rw [hmul, Int.natCast_dvd, Int.natAbs_mul] at hdvd
      exact hdvd
    have hcoprime : Nat.Coprime (2 ^ (8 * k)) 7 := Nat.Coprime.pow_left _ (by decide)
    have hn : ((2 ^ (8 * k) : Nat) : Int) ∣ n :=
      Int.natCast_dvd.mpr (hcoprime.dvd_of_dvd_mul_left hseven)
    exact heq.symm.trans (Int.dvd_iff_bmod_eq_zero.mp (hn.mul_right 8))
  · rintro rfl
    rw [Int.zero_mul]
    exact Int.zero_bmod

/-- A difference undoes an addition of nothing only. -/
theorem diffInverts_iff (hs : PtrStates A h x v2 n m) (hn : FitsS32 (n * 8))
    (hres : FitsS32 (v2.offset + n * 8)) {k : Nat} (hk : 0 < k) (hk' : k ≤ 8) :
    DiffInverts A E rand h x n k ↔ n = 0 := by
  obtain ⟨raw, hp⟩ := hs.addr
  have hdistinct := hs.distinct
  simp only [List.nodup_cons, List.mem_cons, List.not_mem_nil, or_false, not_or] at hdistinct
  obtain ⟨⟨hpq, -⟩, ⟨-, -, hqd, -⟩, -⟩ := hdistinct
  obtain ⟨rawd, bytes, hd⟩ := hs.number
  obtain ⟨raw₁, h1⟩ := decAssign_plus E rand hp hs.count_n hs.pointers.1 (Ne.symm hpq)
  have hframe : ∀ y, y ≠ x.q → ∀ v, Function.update h x.q v y = h y :=
    fun y hy v => Function.update_of_ne hy v h
  have hq : Function.update h x.q (.sec2 raw₁ .addr (v2.moved n)) x.q =
      .sec2 raw₁ .addr (v2.moved n) := Function.update_self ..
  have hp' := (hframe x.p hpq (.sec2 raw₁ .addr (v2.moved n))).trans hp
  have hd' := (hframe x.d (Ne.symm hqd) (.sec2 raw₁ .addr (v2.moved n))).trans hd
  have hds : (v2.moved n).ds = v2.ds := rfl
  have hdiff := decAssign_diff (A := A) E rand hq hp' hd' hds hk
  have hmoved : (v2.moved n).offset = v2.offset + n * 8 := s32_of_fits hres
  have hoffset : (v2.moved n).offset - v2.offset = n * 8 := by omega
  rw [hoffset, s32_of_fits hn] at hdiff
  rw [← bmod_eight_eq_iff k, ← bytesInt_diff (A := A) hk']
  constructor
  · rintro ⟨h₁, h₂, raw', bytes', h1', hdiff', hval, hnum⟩
    rw [h1] at h1'
    cases h1'
    rw [hdiff] at hdiff'
    cases hdiff'
    rw [Function.update_self] at hval
    cases hval
    exact hnum
  · intro hnum
    exact ⟨_, _, rawd, _, h1, hdiff, Function.update_self .., hnum⟩

/-- **The laws of pointer arithmetic hold exactly for a count of nothing**: the difference that is
    stored is one of bits. -/
theorem pointer_laws_exact (hs : PtrStates A h x v2 n m) (hn : FitsS32 (n * 8))
    (hres : FitsS32 (v2.offset + n * 8)) {k : Nat} (hk : 0 < k) (hk' : k ≤ 8) :
    PointerLaws A E rand h x n k ↔ n = 0 := by
  unfold PointerLaws
  rw [diffInverts_iff E rand hs hn hres hk hk']
  exact and_iff_left (pointerPlus_plus E rand hs)

/-! ## Four bytes -/

/-- All nodes are of a type of 64 bits without a sign. -/
def sizeAssignEnv : AssignEnv := { intAssignEnv with ext := fun _ => ⟨false, 63, 64⟩ }

/-- An address 8 bytes into the data state 8, three null pointers, a number, and the counts 4, -4
    and 0. -/
def ptrHeap : DsHeap
  | 0 => .sec2 0 .addr ⟨some 8, 64, 32⟩
  | 5 => .sec1 0 .intCst (spell 8 4)
  | 6 => .sec1 0 .intCst (spell 8 (-4))
  | _ => .sec1 0 .intCst (spell 8 0)

def ptrVars : PtrVars := ⟨0, 1, 2, 3, 4, 5, 6, 7⟩

theorem ptrHeap_states : PtrStates sizeAssignEnv ptrHeap ptrVars ⟨some 8, 64, 32⟩ 4 (-4) where
  addr := ⟨0, rfl⟩
  count_n := ⟨0, rfl, rfl⟩
  count_m := ⟨0, rfl, rfl⟩
  count_s := ⟨0, rfl, rfl⟩
  pointers := ⟨rfl, rfl, rfl⟩
  number := ⟨0, _, rfl⟩
  distinct := by decide

theorem pointer_laws_exact_four :
    PointerLaws sizeAssignEnv (plainEnv .other) (fun _ _ => 0) ptrHeap ptrVars 4 8 ↔
      (4 : Int) = 0 :=
  pointer_laws_exact _ _ ptrHeap_states ⟨by decide, by decide⟩ ⟨by decide, by decide⟩ (by decide)
    (by decide)

/-- The difference of `p + 4` and `p` is 32. -/
theorem difference_in_bits :
    ¬ PointerLaws sizeAssignEnv (plainEnv .other) (fun _ _ => 0) ptrHeap ptrVars 4 8 := by
  intro hlaws
  have hzero := (diffInverts_iff _ _ ptrHeap_states ⟨by decide, by decide⟩
    ⟨by decide, by decide⟩ (by decide) (by decide)).mp hlaws.1
  exact absurd hzero (by decide)

end Srcinv.Analysis
