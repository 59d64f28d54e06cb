import Srcinv.Lib.ByteNum
import Srcinv.Analysis.CallGraph
import Srcinv.Analysis.SinodeIds

/-!
# Calls in assembly (`MODE_GETINDCFG1` of `analysis/gcc/asm.cc`)

The functions of a sibuf are disassembled from the first byte to the last one.  For a call with a
displacement the function at the address is looked for, for one without the relocation entry of the
place is; the two call lists are extended.  A displacement is read without a sign.

* `mem_insns` — the instructions that the sweep comes to.
* `callTarget_direct` — a direct call with a displacement finds the function that it calls exactly
  if it goes forward.
* `getindcfg1_exact` — **the lists have what the sweeps find, and nothing else is new.**
-/

namespace Srcinv.Analysis

open Srcinv.Lib

/-! ## The sweep -/

/-- What `disas_next` says of an address: the bytes of the instruction, and whether it is a call. -/
structure Disassembled where
  bytes : List Nat
  call : Bool
  deriving DecidableEq, Repr

/-- What the pass has from outside: the disassembler, the length of its buffer, the name that the
    relocation entry for a place in a function has, and what `size` of a `func_node` reads behind a
    `var_node`. -/
structure AsmText where
  disas : Nat → Option Disassembled
  disas_pos : ∀ a i, disas a = some i → 0 < i.bytes.length
  X86_X64_OPCODE_MAXLEN : Nat
  relName : Nat → Nat → Option Name
  behindVar : Nat → Nat

variable (T : AsmText)

/-- The loop of `indcfg1_match_cb` over the instructions up to `stop`. -/
def AsmText.insns (stop : Nat) : Nat → Nat → List (Nat × Disassembled)
  | 0, _ => []
  | n + 1, addr =>
    if addr < stop then
      match T.disas addr with
      | none => []
      | some i =>
        if T.X86_X64_OPCODE_MAXLEN < i.bytes.length then []
        else (addr, i) :: insns stop n (addr + i.bytes.length)
    else []

/-- The addresses that the sweep comes to. -/
inductive AsmText.Swept (start stop : Nat) : Nat → Prop
  | start : Swept start stop start
  | next {a : Nat} {i : Disassembled} (h : Swept start stop a) (ha : a < stop)
      (hi : T.disas a = some i) (hlen : i.bytes.length ≤ T.X86_X64_OPCODE_MAXLEN) :
      Swept start stop (a + i.bytes.length)

/-- The sweep comes to the instruction `i` at `ip`. -/
def AsmText.InsnAt (start stop ip : Nat) (i : Disassembled) : Prop :=
  T.Swept start stop ip ∧ ip < stop ∧ T.disas ip = some i ∧
    i.bytes.length ≤ T.X86_X64_OPCODE_MAXLEN

/-! ## The pass -/

/-- The sinodes with the number of ids that each type has given out. -/
structure AsmStore extends FuncStore where
  idCnt : SinodeType → Nat

/-- `sinode_match` of one type. -/
def AsmStore.matched (st : AsmStore) (ty : SinodeType) : List Nat :=
  (List.range' ((IdType.spec ty).code * 2 ^ 28) (st.idCnt ty)).filterMap st.byId

variable (st : AsmStore)

/-- `addr2sinode_match`: the function starts at the address. -/
def StartsAt (addr p : Nat) : Prop :=
  (st.sn p).buf.dataFmt = .asm ∧ (st.sn p).data.map DataNode.node = some addr

instance (addr p : Nat) : Decidable (StartsAt st addr p) :=
  inferInstanceAs (Decidable (_ ∧ _))

/-- `addr2sinode_val` after the callback has seen all sinodes of a type: the last one counts. -/
def addr2sinodeVal (addr : Nat) (ty : SinodeType) : Option Nat :=
  (st.matched ty).foldl (fun val p => if StartsAt st addr p then some p else val) none

/-- `addr2sinode` without relocation. -/
def addr2sinode (addr : Nat) : Option Nat :=
  match addr2sinodeVal st addr .funcGlobal with
  | some p => some p
  | none => addr2sinodeVal st addr .funcStatic

/-- `addr2sinode_rel`, in the function at `node` of the resfile `rf`. -/
def addr2sinodeRel (rf node addr : Nat) : Option Nat :=
  (T.relName node addr).bind fun name =>
    sinodeSearchNameResfile st.toSinodeStore .funcGlobal rf st.builtin name

/-- `value` of `indcfg1_do_call`. -/
def callValue (opcodes : List Nat) : Option Nat :=
  if opcodes.length = 3 ∨ opcodes.length = 5 then some (bytesNat (opcodes.drop 1))
  else if opcodes.head? = some 0xff then some 0
  else none

/-- The sinode that `indcfg1_do_call` finds for a call at `ip`. -/
def callTarget (rf node ip : Nat) (opcodes : List Nat) : Option Nat :=
  match callValue opcodes, opcodes.head? with
  | some value, some 0xe8 =>
    if value = 0 then addr2sinodeRel T st rf node (ip + 1)
    else addr2sinode st ((ip + opcodes.length + value) % 2 ^ 64)
  | some value, some 0x9a =>
    if value = 0 then addr2sinodeRel T st rf node (ip + 1) else addr2sinode st value
  | _, _ => none

/-- Whether a sinode has a `var_node`, which has no call lists. -/
def IsVar (p : Nat) : Prop := (st.sn p).type = .varGlobal ∨ (st.sn p).type = .varStatic

instance (p : Nat) : Decidable (IsVar st p) := inferInstanceAs (Decidable (_ ∨ _))

/-- `indcfg1_do_call` of the instruction at `ip`; other instructions are passed over. -/
def indcfg1DoCall (sn rf node : Nat) (fns : FuncNodes) (insn : Nat × Disassembled) :
    Option FuncNodes :=
  if insn.2.call then
    match callTarget T st rf node insn.1 insn.2.bytes with
    | none => some fns
    | some target =>
      if IsVar st sn then none else asmCall st.toFuncStore sn target insn.1 fns
  else some fns

/-- `fn->size`; for a variable it is what is behind its `var_node`. -/
def sizeRead (p : Nat) (d : DataNode) : Nat := if IsVar st p then T.behindVar p else d.size

/-- The instructions of a sinode. -/
def insnsOf (p : Nat) (d : DataNode) : List (Nat × Disassembled) :=
  T.insns (d.node + sizeRead T st p d) (sizeRead T st p d) d.node

/-- `indcfg1_match_cb`; without a `func_node` a null pointer is read. -/
def indcfg1MatchCb (buf : Nat) (fns : FuncNodes) (sn : Nat) : Option FuncNodes :=
  if (st.sn sn).buf.id ≠ buf then some fns
  else
    match (st.sn sn).data with
    | none => none
    | some d => (insnsOf T st sn d).foldlM (indcfg1DoCall T st sn (st.sn sn).buf.rf d.node) fns

/-- The sinodes that the callback is given. -/
def indcfg1Sinodes : List Nat :=
  [SinodeType.varGlobal, .varStatic, .funcGlobal, .funcStatic].flatMap st.matched

/-- `getindcfg1` of the sibuf `buf`. -/
def getindcfg1 (buf : Nat) (fns : FuncNodes) : Option FuncNodes :=
  (indcfg1Sinodes st).foldlM (indcfg1MatchCb T st buf) fns

/-! ## What the pass should note -/

/-- In the sweep of `f` the instruction `i` at `ip` is a call. -/
def CallInsn (buf f : Nat) (d : DataNode) (ip : Nat) (i : Disassembled) : Prop :=
  f ∈ indcfg1Sinodes st ∧ (st.sn f).buf.id = buf ∧ (st.sn f).data = some d ∧
    T.InsnAt d.node (d.node + sizeRead T st f d) ip i ∧ i.call = true

/-- In the sweep of `f` there is a call at `ip` that finds `g`. -/
def CallsAt (buf f ip g : Nat) : Prop :=
  ∃ d i, CallInsn T st buf f d ip i ∧ callTarget T st (st.sn f).buf.rf d.node ip i.bytes = some g

/-- A list notes a call of the function at a place. -/
def NotedAt (head : List CallfList) (value valueFlag : Nat) (type : Int) («where» : Nat) : Prop :=
  ∃ e ∈ head, e.Is value valueFlag ∧ ⟨type, «where»⟩ ∈ e.stmts

variable {T} {st}

/-! ## Instructions -/

namespace AsmText

variable {start stop ip : Nat} {i : Disassembled}

theorem Swept.le (h : T.Swept start stop ip) : start ≤ ip := by
  induction h with
  | start => exact Nat.le_refl _
  | next _ _ _ _ ih => exact Nat.le_add_right_of_le ih

/-- A sweep that starts one instruction earlier. -/
theorem Swept.front (ha : start < stop) (hi : T.disas start = some i)
    (hlen : i.bytes.length ≤ T.X86_X64_OPCODE_MAXLEN)
    (h : T.Swept (start + i.bytes.length) stop ip) : T.Swept start stop ip := by
  induction h with
  | start => exact .next .start ha hi hlen
  | next _ ha' hi' hlen' ih => exact .next ih ha' hi' hlen'

/-- A sweep that goes on behind its first instruction. -/
theorem Swept.cases_front (h : T.Swept start stop ip) : ip = start ∨ ∃ i, start < stop ∧
    T.disas start = some i ∧ i.bytes.length ≤ T.X86_X64_OPCODE_MAXLEN ∧
      T.Swept (start + i.bytes.length) stop ip := by
  induction h with
  | start => exact Or.inl rfl
  | next _ ha hi hlen ih =>
    obtain rfl | ⟨j, hlt, hj, hjlen, hrest⟩ := ih
    · exact Or.inr ⟨_, ha, hi, hlen, .start⟩
    · exact Or.inr ⟨j, hlt, hj, hjlen, .next hrest ha hi hlen⟩

/-- **The instructions that the sweep comes to.**  As many turns as there are bytes are enough. -/
theorem mem_insns {n : Nat} (hn : stop ≤ start + n) :
    (ip, i) ∈ T.insns stop n start ↔ T.InsnAt start stop ip i := by
  unfold InsnAt
  induction n generalizing start with
  | zero =>
    refine ⟨fun h => (by cases h), fun ⟨h, hlt, _⟩ => ?_⟩
    have hle := h.le
    omega
  | succ n ih =>
    unfold insns
    split
    · rename_i hstart
      split
      · rename_i hnone
        refine ⟨fun h => (by cases h), fun ⟨h, _, hi, _⟩ => ?_⟩
        obtain rfl | ⟨j, -, hj, -⟩ := h.cases_front
        · rw [hnone] at hi
          cases hi
        · rw [hnone] at hj
          cases hj
      · rename_i j hj
        have hpos := T.disas_pos start j hj
        split
        · rename_i hlong
          refine ⟨fun h => (by cases h), fun ⟨h, _, hi, hlen⟩ => ?_⟩
          obtain rfl | ⟨j', -, hj', hlen', -⟩ := h.cases_front
          · rw [hj] at hi
            cases hi
            omega
          · rw [hj] at hj'
            cases hj'
            omega
        · rename_i hlen
          rw [List.mem_cons, ih (by omega)]
          constructor
          · rintro (heq | ⟨h, hlt, hi, hilen⟩)
            · cases heq
              exact ⟨.start, hstart, hj, by omega⟩
            · exact ⟨h.front hstart hj (by omega), hlt, hi, hilen⟩
          · rintro ⟨h, hlt, hi, hilen⟩
            obtain rfl | ⟨j', -, hj', -, hrest⟩ := h.cases_front
            · rw [hj] at hi
              cases hi
              exact Or.inl rfl
            · rw [hj] at hj'
              cases hj'
              exact Or.inr ⟨hrest, hlt, hi, hilen⟩
    · refine ⟨fun h => (by cases h), fun ⟨h, hlt, _⟩ => ?_⟩
      have hle := h.le
      omega

end AsmText

/-! ## Addresses -/

/-- The function that is found starts at the address, and one is found if there is one. -/
theorem addr2sinodeVal_spec (st : AsmStore) (addr : Nat) (ty : SinodeType) :
    (∀ p, addr2sinodeVal st addr ty = some p → p ∈ st.matched ty ∧ StartsAt st addr p) ∧
      (addr2sinodeVal st addr ty = none → ∀ p ∈ st.matched ty, ¬ StartsAt st addr p) := by
  have hfold : ∀ l : List Nat, ∀ val : Option Nat,
      let r := l.foldl (fun val p => if StartsAt st addr p then some p else val) val
      (∀ p, r = some p → val = some p ∨ (p ∈ l ∧ StartsAt st addr p)) ∧
        (r = none → val = none ∧ ∀ p ∈ l, ¬ StartsAt st addr p) := by
    intro l
    induction l with
    | nil => exact fun val => ⟨fun p h => Or.inl h, fun h => ⟨h, fun p hp => (by cases hp)⟩⟩
    | cons q l ih =>
      intro val
      obtain ⟨hsome, hnone⟩ := ih (if StartsAt st addr q then some q else val)
      refine ⟨fun p hp => ?_, fun hr => ?_⟩
      · obtain hval | ⟨hmem, hat⟩ := hsome p hp
        · split at hval
          · rename_i hq
            cases hval
            exact Or.inr ⟨List.mem_cons_self, hq⟩
          · exact Or.inl hval
        · exact Or.inr ⟨List.mem_cons_of_mem q hmem, hat⟩
      · obtain ⟨hval, hrest⟩ := hnone hr
        split at hval
        · cases hval
        · rename_i hq
          refine ⟨hval, fun p hp => ?_⟩
          obtain rfl | hp := List.mem_cons.mp hp
          · exact hq
          · exact hrest p hp
  obtain ⟨hsome, hnone⟩ := hfold (st.matched ty) none
  refine ⟨fun p hp => ?_, fun h => (hnone h).2⟩
  obtain h | h := hsome p hp
  · cases h
  · exact h

/-- `addr2sinode` looks through the functions. -/
def Matched (st : AsmStore) (p : Nat) : Prop :=
  p ∈ st.matched .funcGlobal ∨ p ∈ st.matched .funcStatic

theorem addr2sinode_spec (st : AsmStore) (addr : Nat) :
    (∀ p, addr2sinode st addr = some p → Matched st p ∧ StartsAt st addr p) ∧
      (addr2sinode st addr = none → ∀ p, Matched st p → ¬ StartsAt st addr p) := by
  obtain ⟨hglobal, hnoglobal⟩ := addr2sinodeVal_spec st addr .funcGlobal
  obtain ⟨hstatic, hnostatic⟩ := addr2sinodeVal_spec st addr .funcStatic
  unfold addr2sinode
  cases hval : addr2sinodeVal st addr .funcGlobal with
  | some q =>
    refine ⟨fun p hp => ?_, fun h => (by cases h)⟩
    cases hp
    exact (hglobal q hval).imp_left Or.inl
  | none =>
    refine ⟨fun p hp => (hstatic p hp).imp_left Or.inr, fun h p hp => ?_⟩
    exact hp.elim (hnoglobal hval p) (hnostatic h p)

/-- The displacement of a direct call. -/
def displacement (opcodes : List Nat) : Int := (bytesNat (opcodes.drop 1) : Int).bmod (2 ^ 32)

/-- Where a direct call at `ip` goes. -/
def calledAddr (ip : Nat) (opcodes : List Nat) : Nat :=
  ((ip + opcodes.length + displacement opcodes) % 2 ^ 64).toNat

/-- A call with opcode `e8` and a displacement of four bytes. -/
structure DirectCall (opcodes : List Nat) : Prop where
  length : opcodes.length = 5
  opcode : opcodes.head? = some 0xe8

theorem DirectCall.value_lt {opcodes : List Nat} (h : DirectCall opcodes) :
    bytesNat (opcodes.drop 1) < 2 ^ 32 := by
  have hlt := bytesNat_lt (opcodes.drop 1)
  rw [List.length_drop, h.length] at hlt
  omega

theorem DirectCall.value_eq_zero {opcodes : List Nat} (h : DirectCall opcodes) :
    bytesNat (opcodes.drop 1) = 0 ↔ displacement opcodes = 0 := by
  have hlt := h.value_lt
  unfold displacement
  rw [Int.bmod_def]
  split <;> omega

/-- The sinode that is looked for. -/
theorem DirectCall.callTarget_eq {opcodes : List Nat} (h : DirectCall opcodes) (T : AsmText)
    (st : AsmStore) (rf node ip : Nat) : callTarget T st rf node ip opcodes =
      if displacement opcodes = 0 then addr2sinodeRel T st rf node (ip + 1)
      else addr2sinode st ((ip + opcodes.length + bytesNat (opcodes.drop 1)) % 2 ^ 64) := by
  have hvalue : callValue opcodes = some (bytesNat (opcodes.drop 1)) := if_pos (Or.inr h.length)
  unfold callTarget
  simp only [hvalue, h.opcode, h.value_eq_zero]

/-- **A direct call with a displacement finds the function that it calls exactly if it goes
    forward.** -/
theorem callTarget_direct (T : AsmText) {st : AsmStore} (rf node : Nat) {ip p : Nat}
    {opcodes : List Nat} (hdirect : DirectCall opcodes) (hdisp : displacement opcodes ≠ 0)
    (hp : Matched st p) (hat : StartsAt st (calledAddr ip opcodes) p) :
    (∃ g, callTarget T st rf node ip opcodes = some g ∧ StartsAt st (calledAddr ip opcodes) g) ↔
      0 < displacement opcodes := by
  have hlen := hdirect.length
  have hlt := hdirect.value_lt
  have hne : bytesNat (opcodes.drop 1) ≠ 0 := fun h => hdisp (hdirect.value_eq_zero.mp h)
  have htarget := hdirect.callTarget_eq T st rf node ip
  rw [if_neg hdisp] at htarget
  have haddr : (0 < displacement opcodes ∧
      (ip + opcodes.length + bytesNat (opcodes.drop 1)) % 2 ^ 64 = calledAddr ip opcodes) ∨
      (displacement opcodes < 0 ∧
        (ip + opcodes.length + bytesNat (opcodes.drop 1)) % 2 ^ 64 ≠ calledAddr ip opcodes) := by
    unfold calledAddr displacement
    generalize bytesNat (opcodes.drop 1) = value at hlt hne
    rw [hlen, Int.bmod_def]
    split <;> omega
  generalize (ip + opcodes.length + bytesNat (opcodes.drop 1)) % 2 ^ 64 = a at haddr htarget
  rw [htarget]
  obtain ⟨hsome, hnone⟩ := addr2sinode_spec st a
  constructor
  · rintro ⟨g, hg, hgat⟩
    obtain ⟨hpos, -⟩ | ⟨-, hother⟩ := haddr
    · exact hpos
    · -- what is found without a sign starts elsewhere
      have hgat' := (hsome g hg).2.2
      rw [hgat.2] at hgat'
      exact absurd (Option.some.inj hgat').symm hother
  · intro hpos
    obtain ⟨-, hsame⟩ | ⟨hneg, -⟩ := haddr
    · rw [← hsame] at hat ⊢
      cases hfind : addr2sinode st a with
      | none => exact absurd hat (hnone hfind p hp)
      | some g => exact ⟨g, rfl, (hsome g hfind).2⟩
    · exact absurd hpos (Int.not_lt.mpr (Int.le_of_lt hneg))

/-! ## What is noted -/

section Notes

variable {head : List CallfList} {value valueFlag : Nat} {bodyMissing : Bool}

/-- A new entry notes nothing. -/
theorem notedAt_addCall (v f : Nat) (type : Int) («where» : Nat) :
    NotedAt (addCall head value valueFlag bodyMissing) v f type «where» ↔
      NotedAt head v f type «where» := by
  obtain ⟨-, heq⟩ | ⟨-, heq⟩ := addCall_cases head value valueFlag bodyMissing
  · rw [heq]
  · rw [heq]
    constructor
    · rintro ⟨e, he, his, hmem⟩
      obtain he | he := List.mem_append.mp he
      · exact ⟨e, he, his, hmem⟩
      · obtain rfl := List.mem_singleton.mp he
        cases hmem
    · rintro ⟨e, he, h⟩
      exact ⟨e, List.mem_append_left _ he, h⟩

/-- The entry of a function gets the statement. -/
theorem notedAt_addStmt {type : Int} {«where» : Nat} (hl : Listed head value valueFlag) (v f : Nat)
    (type' : Int) (where' : Nat) :
    NotedAt (addStmt value valueFlag type «where» head) v f type' where' ↔
      NotedAt head v f type' where' ∨
        (v = value ∧ f = valueFlag ∧ type' = type ∧ where' = «where») := by
  have hadd : ∀ l : List CallfStmtList,
      (⟨type', where'⟩ : CallfStmtList) ∈ callfStmtListAdd l type «where» ↔
        ⟨type', where'⟩ ∈ l ∨ (type' = type ∧ where' = «where») := by
    intro l
    unfold callfStmtListAdd
    split
    · rename_i hmem
      refine ⟨Or.inl, ?_⟩
      rintro (h | ⟨rfl, rfl⟩)
      · exact h
      · exact hmem
    · simp
  induction head with
  | nil =>
    obtain ⟨e, he, -⟩ := hl
    cases he
  | cons c cs ih =>
    have hcons : ∀ (e : CallfList) (es : List CallfList), NotedAt (e :: es) v f type' where' ↔
        (e.Is v f ∧ ⟨type', where'⟩ ∈ e.stmts) ∨ NotedAt es v f type' where' := by
      intro e es
      unfold NotedAt
      simp
    unfold addStmt
    split
    · rename_i hc
      rw [hcons, hcons, hadd]
      constructor
      · rintro (⟨his, h | h⟩ | h)
        · exact Or.inl (Or.inl ⟨his, h⟩)
        · exact Or.inr ⟨his.1.symm.trans hc.1, his.2.symm.trans hc.2, h⟩
        · exact Or.inl (Or.inr h)
      · rintro ((⟨his, h⟩ | h) | ⟨rfl, rfl, h⟩)
        · exact Or.inl ⟨his, Or.inl h⟩
        · exact Or.inr h
        · exact Or.inl ⟨hc, Or.inr h⟩
    · rename_i hc
      have hl' : Listed cs value valueFlag := by
        obtain ⟨e, he, his⟩ := hl
        obtain rfl | he := List.mem_cons.mp he
        · exact absurd his hc
        · exact ⟨e, he, his⟩
      rw [hcons, hcons, or_assoc]
      exact or_congr_right (ih hl')

end Notes

variable {fns fns' : FuncNodes} {f q v fl : Nat}

/-- The calls `C f ip g` have been noted on both sides. -/
structure CallsNoted (st : AsmStore) (C : Nat × Nat × Nat → Prop) (fns fns' : FuncNodes) :
    Prop where
  callees : ∀ q v fl, Listed (fns' q).callees v fl ↔ Listed (fns q).callees v fl ∨
    (fl = 0 ∧ ∃ ip g, C (q, ip, g) ∧ v = st.id g)
  callers : ∀ q v fl, Listed (fns' q).callers v fl ↔ Listed (fns q).callers v fl ∨
    (fl = 0 ∧ HasBody st.toFuncStore q ∧ ∃ f ip, C (f, ip, q) ∧ v = st.id f)
  noted : ∀ q v fl type ip, NotedAt (fns' q).callees v fl type ip ↔
    NotedAt (fns q).callees v fl type ip ∨
      (fl = 0 ∧ type = SI_TYPE_DF_ASM ∧ ∃ g, C (q, ip, g) ∧ v = st.id g)

theorem callsNoted_accumulates : Accumulates (CallsNoted st) where
  refl fns := ⟨by simp, by simp, by simp⟩
  trans C C' fns fns₁ fns₂ h h' := by
    refine ⟨fun q v fl => ?_, fun q v fl => ?_, fun q v fl type ip => ?_⟩
    · rw [h'.callees, h.callees]
      grind
    · rw [h'.callers, h.callers]
      grind
    · rw [h'.noted, h.noted]
      grind

theorem asmCall_eq (sn target ip : Nat) (fns : FuncNodes) :
    asmCall st.toFuncStore sn target ip fns =
      let noted := addCallee st.toFuncStore sn target ip SI_TYPE_DF_ASM fns
      if HasBody st.toFuncStore target then
        some (Function.update noted target { noted target with
          callers := addCall (noted target).callers (st.id sn) 0 false })
      else some noted := rfl

/-- The callee is noted with the place of the call. -/
theorem notedAt_addCallee {sn target ip : Nat} (q v fl : Nat) (type' : Int) (ip' : Nat) :
    NotedAt (addCallee st.toFuncStore sn target ip SI_TYPE_DF_ASM fns q).callees v fl type' ip' ↔
      NotedAt (fns q).callees v fl type' ip' ∨
        (q = sn ∧ v = st.id target ∧ fl = 0 ∧ type' = SI_TYPE_DF_ASM ∧ ip' = ip) := by
  unfold addCallee
  by_cases hq : q = sn
  · subst hq
    rw [noteCallee_self, notedAt_addStmt ((listed_addCall _ _).mpr (Or.inr ⟨rfl, rfl⟩)),
      notedAt_addCall]
    simp only [true_and]
  · rw [noteCallee_of_ne hq]
    simp only [hq, false_and, or_false]

theorem asmCall_callees {sn target ip : Nat}
    (h : asmCall st.toFuncStore sn target ip fns = some fns') (q : Nat) : (fns' q).callees =
      (addCallee st.toFuncStore sn target ip SI_TYPE_DF_ASM fns q).callees := by
  rw [asmCall_eq] at h
  dsimp only at h
  split at h
  · cases h
    by_cases hq : q = target
    · subst hq
      rw [Function.update_self]
    · rw [Function.update_of_ne hq]
  · cases h
    rfl

/-- The caller is noted where the callee has a body. -/
theorem listed_asmCall_callers {sn target ip : Nat}
    (h : asmCall st.toFuncStore sn target ip fns = some fns') (q v fl : Nat) :
    Listed (fns' q).callers v fl ↔ Listed (fns q).callers v fl ∨
      (HasBody st.toFuncStore target ∧ q = target ∧ v = st.id sn ∧ fl = 0) := by
  have hcallers : (addCallee st.toFuncStore sn target ip SI_TYPE_DF_ASM fns q).callers =
      (fns q).callers := noteCallee_callers q
  rw [asmCall_eq] at h
  dsimp only at h
  split at h
  · rename_i hbody
    cases h
    by_cases hq : q = target
    · subst hq
      rw [Function.update_self]
      show Listed (addCall _ _ _ _) v fl ↔ _
      rw [hcallers, listed_addCall]
      simp only [hbody, true_and]
    · rw [Function.update_of_ne hq, hcallers]
      simp only [hq, false_and, and_false, or_false]
  · rename_i hbody
    cases h
    rw [hcallers]
    simp only [hbody, false_and, or_false]

/-- **One call.** -/
theorem callsNoted_asmCall {sn target ip : Nat}
    (h : asmCall st.toFuncStore sn target ip fns = some fns') :
    CallsNoted st (fun c => c = (sn, ip, target)) fns fns' := by
  refine ⟨fun q v fl => ?_, fun q v fl => ?_, fun q v fl type ip' => ?_⟩
  · rw [asmCall_callees h, addCallee, listed_noteCallee]
    refine or_congr_right ⟨?_, ?_⟩
    · rintro ⟨rfl, rfl, rfl⟩
      exact ⟨rfl, ip, target, rfl, rfl⟩
    · rintro ⟨rfl, ip', g, hc, rfl⟩
      cases hc
      exact ⟨rfl, rfl, rfl⟩
  · rw [listed_asmCall_callers h]
    refine or_congr_right ⟨?_, ?_⟩
    · rintro ⟨hbody, rfl, rfl, rfl⟩
      exact ⟨rfl, hbody, sn, ip, rfl, rfl⟩
    · rintro ⟨rfl, hbody, f, ip', hc, rfl⟩
      cases hc
      exact ⟨hbody, rfl, rfl, rfl⟩
  · rw [asmCall_callees h, notedAt_addCallee]
    refine or_congr_right ⟨?_, ?_⟩
    · rintro ⟨rfl, rfl, rfl, rfl, rfl⟩
      exact ⟨rfl, rfl, target, rfl, rfl⟩
    · rintro ⟨rfl, rfl, g, hc, rfl⟩
      cases hc
      exact ⟨rfl, rfl, rfl, rfl, rfl⟩

/-- The calls of a single instruction. -/
theorem indcfg1DoCall_cases {sn rf node : Nat} {insn : Nat × Disassembled}
    (h : indcfg1DoCall T st sn rf node fns insn = some fns') :
    CallsNoted st (fun c => c.1 = sn ∧ c.2.1 = insn.1 ∧ insn.2.call = true ∧
      callTarget T st rf node insn.1 insn.2.bytes = some c.2.2) fns fns' := by
  have hnone : ∀ {C : Nat × Nat × Nat → Prop}, (∀ c, ¬ C c) → CallsNoted st C fns fns := by
    intro C hC
    have hfalse : C = fun _ => False := funext fun c => eq_false (hC c)
    rw [hfalse]
    exact callsNoted_accumulates.refl fns
  unfold indcfg1DoCall at h
  split at h
  · rename_i hcall
    split at h
    · rename_i htarget
      cases h
      refine hnone fun c hc => ?_
      rw [htarget] at hc
      cases hc.2.2.2
    · rename_i target htarget
      split at h
      · cases h
      · have hone := callsNoted_asmCall h
        have hsame : (fun c : Nat × Nat × Nat => c = (sn, insn.1, target)) = fun c => c.1 = sn ∧
            c.2.1 = insn.1 ∧ insn.2.call = true ∧
              callTarget T st rf node insn.1 insn.2.bytes = some c.2.2 := by
          funext c
          rw [htarget, hcall]
          obtain ⟨f, ip, g⟩ := c
          simp only [Prod.mk.injEq, true_and, Option.some.injEq, eq_comm]
        rw [← hsame]
        exact hone
  · rename_i hcall
    cases h
    exact hnone fun c hc => hcall hc.2.2.1

theorem mem_insnsOf {p ip : Nat} {d : DataNode} {i : Disassembled} :
    (ip, i) ∈ insnsOf T st p d ↔ T.InsnAt d.node (d.node + sizeRead T st p d) ip i :=
  AsmText.mem_insns (Nat.le_refl _)

/-- The calls of a sinode. -/
theorem indcfg1MatchCb_cases {buf sn : Nat} (hsn : sn ∈ indcfg1Sinodes st)
    (h : indcfg1MatchCb T st buf fns sn = some fns') :
    CallsNoted st (fun c => c.1 = sn ∧ CallsAt T st buf c.1 c.2.1 c.2.2) fns fns' := by
  unfold indcfg1MatchCb at h
  split at h
  · rename_i hbuf
    cases h
    have hfalse : (fun c : Nat × Nat × Nat => c.1 = sn ∧ CallsAt T st buf c.1 c.2.1 c.2.2) =
        fun _ => False := by
      funext c
      refine eq_false ?_
      rintro ⟨rfl, d, i, hcall, -⟩
      exact hbuf hcall.2.1
    rw [hfalse]
    exact callsNoted_accumulates.refl fns
  · rename_i hbuf
    split at h
    · cases h
    · rename_i d hd
      have hall := foldlM_accumulates_some callsNoted_accumulates
        (fun insn _ s t hst => indcfg1DoCall_cases hst) h
      have hsame : (fun c : Nat × Nat × Nat => c.1 = sn ∧ CallsAt T st buf c.1 c.2.1 c.2.2) =
          fun c => ∃ insn ∈ insnsOf T st sn d, c.1 = sn ∧ c.2.1 = insn.1 ∧ insn.2.call = true ∧
            callTarget T st (st.sn sn).buf.rf d.node insn.1 insn.2.bytes = some c.2.2 := by
        funext ⟨f, ip, g⟩
        refine propext ⟨?_, ?_⟩
        · rintro ⟨rfl, d', i, ⟨-, -, hd', hi, hcall⟩, htarget⟩
          rw [hd] at hd'
          cases hd'
          exact ⟨(ip, i), mem_insnsOf.mpr hi, rfl, rfl, hcall, htarget⟩
        · rintro ⟨⟨ip', i⟩, hi, rfl, rfl, hcall, htarget⟩
          exact ⟨rfl, d, i, ⟨hsn, not_not.mp hbuf, hd, mem_insnsOf.mp hi, hcall⟩, htarget⟩
      rw [hsame]
      exact hall

/-- When the callback comes back. -/
theorem indcfg1MatchCb_isSome {buf sn : Nat} (hsn : sn ∈ indcfg1Sinodes st) (fns : FuncNodes) :
    (indcfg1MatchCb T st buf fns sn).isSome ↔ ((st.sn sn).buf.id = buf → (st.sn sn).data.isSome ∧
      (IsVar st sn → ∀ ip g, ¬ CallsAt T st buf sn ip g)) := by
  unfold indcfg1MatchCb
  split
  · rename_i hbuf
    exact ⟨fun _ h => absurd h hbuf, fun _ => rfl⟩
  · rename_i hbuf
    rw [not_not] at hbuf
    split
    · rename_i hnone
      refine ⟨fun h => (by cases h), fun h => ?_⟩
      have hsome := (h hbuf).1
      rw [hnone] at hsome
      cases hsome
    · rename_i d hd
      rw [foldlM_isSome_iff (P := fun insn => IsVar st sn → insn.2.call = true →
        callTarget T st (st.sn sn).buf.rf d.node insn.1 insn.2.bytes = none)]
      · constructor
        · intro h _
          refine ⟨by rw [hd]; rfl, fun hvar ip g ⟨d', i, ⟨_, _, hd', hi, hcall⟩, htarget⟩ => ?_⟩
          rw [hd] at hd'
          cases hd'
          rw [h (ip, i) (mem_insnsOf.mpr hi) hvar hcall] at htarget
          cases htarget
        · intro h insn hinsn hvar hcall
          cases htarget : callTarget T st (st.sn sn).buf.rf d.node insn.1 insn.2.bytes with
          | none => rfl
          | some g =>
            exact absurd ⟨d, insn.2, ⟨hsn, hbuf, hd, mem_insnsOf.mp hinsn, hcall⟩, htarget⟩
              ((h hbuf).2 hvar insn.1 g)
      · intro insn _ fns
        unfold indcfg1DoCall
        split
        · rename_i hcall
          split
          · rename_i hnone
            exact ⟨fun _ _ _ => hnone, fun _ => rfl⟩
          · rename_i target htarget
            split
            · rename_i hvar
              refine ⟨fun h => (by cases h), fun h => ?_⟩
              rw [h hvar hcall] at htarget
              cases htarget
            · rename_i hvar
              refine ⟨fun _ h => absurd h hvar, fun _ => ?_⟩
              rw [asmCall_eq]
              simp only
              split <;> rfl
        · rename_i hcall
          exact ⟨fun _ _ h => absurd h hcall, fun _ => rfl⟩

/-- At the place of a call, what is noted is what the call finds. -/
theorem CallInsn.callsAt_iff {buf f ip g : Nat} {d : DataNode} {i : Disassembled}
    (h : CallInsn T st buf f d ip i) : CallsAt T st buf f ip g ↔
      callTarget T st (st.sn f).buf.rf d.node ip i.bytes = some g := by
  constructor
  · rintro ⟨d', i', ⟨-, -, hd', ⟨-, -, hi', -⟩, -⟩, htarget⟩
    obtain ⟨-, -, hd, ⟨-, -, hi, -⟩, -⟩ := h
    cases hd.symm.trans hd'
    cases hi.symm.trans hi'
    exact htarget
  · exact fun htarget => ⟨d, i, h, htarget⟩

/-- **The lists have what the sweeps find.**  The pass comes back unless it finds a function that is
    called in the bytes of a variable; then all calls that find a function are noted on both sides
    with their places, and nothing else is new.  A direct call with a displacement finds a function
    at the address it calls exactly if it goes forward; one without finds the function that its
    relocation entry names. -/
theorem getindcfg1_exact (T : AsmText) (st : AsmStore) (buf : Nat) (fns : FuncNodes) :
    ((getindcfg1 T st buf fns).isSome ↔ ∀ sn ∈ indcfg1Sinodes st, (st.sn sn).buf.id = buf →
      (st.sn sn).data.isSome ∧ (IsVar st sn → ∀ ip g, ¬ CallsAt T st buf sn ip g)) ∧
    (∀ fns', getindcfg1 T st buf fns = some fns' →
      CallsNoted st (fun c => CallsAt T st buf c.1 c.2.1 c.2.2) fns fns') ∧
    ∀ f d ip i, CallInsn T st buf f d ip i → DirectCall i.bytes →
      (displacement i.bytes ≠ 0 →
        (∃ p, Matched st p ∧ StartsAt st (calledAddr ip i.bytes) p) →
          ((∃ g, CallsAt T st buf f ip g ∧ StartsAt st (calledAddr ip i.bytes) g) ↔
            0 < displacement i.bytes)) ∧
      (displacement i.bytes = 0 → ∀ g, CallsAt T st buf f ip g ↔
        ∃ name, T.relName d.node (ip + 1) = some name ∧
          sinodeSearchNameResfile st.toSinodeStore .funcGlobal (st.sn f).buf.rf st.builtin name =
            some g) := by
  refine ⟨foldlM_isSome_iff fun sn hsn fns => indcfg1MatchCb_isSome hsn fns, fun fns' h => ?_,
    fun f d ip i hcall hdirect => ⟨fun hdisp ⟨p, hp, hat⟩ => ?_, fun hdisp g => ?_⟩⟩
  · have hall := foldlM_accumulates_some callsNoted_accumulates
      (fun sn hsn s t hst => indcfg1MatchCb_cases hsn hst) h
    have hsame : (fun c : Nat × Nat × Nat => CallsAt T st buf c.1 c.2.1 c.2.2) =
        fun c => ∃ sn ∈ indcfg1Sinodes st, c.1 = sn ∧ CallsAt T st buf c.1 c.2.1 c.2.2 := by
      funext ⟨f, ip, g⟩
      refine propext ⟨fun hc => ?_, ?_⟩
      · obtain ⟨d, i, hcall, -⟩ := id hc
        exact ⟨f, hcall.1, rfl, hc⟩
      · rintro ⟨sn, -, -, hc⟩
        exact hc
    rw [hsame]
    exact hall
  · rw [← callTarget_direct T (st.sn f).buf.rf d.node hdirect hdisp hp hat]
    simp only [hcall.callsAt_iff]
  · rw [hcall.callsAt_iff, hdirect.callTarget_eq, if_pos hdisp]
    exact Option.bind_eq_some_iff

/-! ## Three calls -/

/-- `call b` by its displacement and by a relocation entry, and in `b` a call back of `a`. -/
def callsText : AsmText where
  disas a :=
    if a = 4096 then some ⟨[0xe8, 5, 0, 0, 0], true⟩
    else if a = 4101 then some ⟨[0xe8, 0, 0, 0, 0], true⟩
    else if a = 4106 then some ⟨[0xe8, 0xf1, 0xff, 0xff, 0xff], true⟩
    else none
  disas_pos := by
    intro a i h
    grind
  X86_X64_OPCODE_MAXLEN := 15
  relName node addr := if node = 4096 ∧ addr = 4102 then some (bytesOf "b") else none
  behindVar _ := 0

/-- The sinode of an assembly function. -/
def asmFuncSinode (name : Name) (data : DataNode) : Sinode :=
  { funcSinode name (some data) with buf := ⟨0, 0, .asm⟩ }

/-- The functions `a` and `b` of a sibuf, one behind the other. -/
def callsStore : AsmStore where
  sn p :=
    if p = 0 then asmFuncSinode (bytesOf "a") ⟨4096, 10⟩
    else asmFuncSinode (bytesOf "b") ⟨4106, 5⟩
  next := 2
  trees ty := if ty = .funcGlobal then .node .nil 0 (.node .nil 1 .nil) else .nil
  builtin := none
  inserted := []
  base :=
    { typed := by
        intro ty p hp
        by_cases hty : ty = .funcGlobal
        · subst hty
          have hmem : p = 0 ∨ p = 1 := by simpa using hp
          obtain rfl | rfl := hmem
          · exact ⟨rfl, Nat.two_pos⟩
          · exact ⟨rfl, Nat.one_lt_two⟩
        · simp [hty] at hp
      flag := fun p => Or.inl (by dsimp only; split <;> rfl)
      named := by
        intro ty
        by_cases hty : ty = .funcGlobal
        · subst hty
          decide
        · simp [hty] }
  id p := TYPE_FUNC_GLOBAL * 2 ^ ID_VALUE_BITS + p
  id_inj := declStore.id_inj
  byId v :=
    if v = TYPE_FUNC_GLOBAL * 2 ^ ID_VALUE_BITS then some 0
    else if v = TYPE_FUNC_GLOBAL * 2 ^ ID_VALUE_BITS + 1 then some 1
    else none
  byId_id := by
    intro v p h
    split_ifs at h with h₀ h₁
    · cases h
      exact ⟨Nat.two_pos, h₀.symm⟩
    · cases h
      exact ⟨Nat.one_lt_two, h₁.symm⟩
  attributes _ := []
  file_data p _ h := absurd h (funcGlobal_not_lt p)
  decl _ := ⟨some (bytesOf "b"), false, true, false, false, none, ⟨none, 0, 0⟩⟩
  resfile _ := 0
  idCnt ty := if ty = .funcGlobal then 2 else 0

theorem callsText_forward :
    CallInsn callsText callsStore 0 0 ⟨4096, 10⟩ 4096 ⟨[0xe8, 5, 0, 0, 0], true⟩ :=
  ⟨by decide, rfl, rfl, ⟨.start, by decide, rfl, by decide⟩, rfl⟩

theorem callsText_relocated :
    CallInsn callsText callsStore 0 0 ⟨4096, 10⟩ 4101 ⟨[0xe8, 0, 0, 0, 0], true⟩ := by
  obtain ⟨-, -, -, ⟨hswept, hlt, hi, hlen⟩, -⟩ := callsText_forward
  exact ⟨by decide, rfl, rfl, ⟨hswept.next hlt hi hlen, by decide, rfl, by decide⟩, rfl⟩

theorem callsText_backward :
    CallInsn callsText callsStore 0 1 ⟨4106, 5⟩ 4106 ⟨[0xe8, 0xf1, 0xff, 0xff, 0xff], true⟩ :=
  ⟨by decide, rfl, rfl, ⟨.start, by decide, rfl, by decide⟩, rfl⟩

/-- **Both calls of `b` are noted with their places, and the call back finds nothing.** -/
theorem getindcfg1_exact_calls : ∃ fns',
    getindcfg1 callsText callsStore 0 callsStore.noCalls = some fns' ∧
      NotedAt (fns' 0).callees (callsStore.id 1) 0 SI_TYPE_DF_ASM 4096 ∧
      NotedAt (fns' 0).callees (callsStore.id 1) 0 SI_TYPE_DF_ASM 4101 ∧
      ¬ ∃ g, CallsAt callsText callsStore 0 1 4106 g ∧ StartsAt callsStore 4096 g := by
  obtain ⟨hback, hnoted, hdirect⟩ :=
    getindcfg1_exact callsText callsStore 0 callsStore.noCalls
  have hfuncs : indcfg1Sinodes callsStore = [0, 1] := by decide
  obtain ⟨fns', hfns'⟩ := Option.isSome_iff_exists.mp (hback.mpr fun sn hsn _ => by
    rw [hfuncs] at hsn
    obtain rfl | rfl : sn = 0 ∨ sn = 1 := by simpa using hsn
    · exact ⟨rfl, fun hvar => absurd hvar (by decide)⟩
    · exact ⟨rfl, fun hvar => absurd hvar (by decide)⟩)
  have hlist := (hnoted fns' hfns').noted 0 (callsStore.id 1) 0 SI_TYPE_DF_ASM
  -- the call by displacement and the one by name
  have hforward : CallsAt callsText callsStore 0 0 4096 1 :=
    callsText_forward.callsAt_iff.mpr (by decide)
  have hrelocated : CallsAt callsText callsStore 0 0 4101 1 :=
    ((hdirect _ _ _ _ callsText_relocated ⟨rfl, rfl⟩).2 (by decide) 1).mpr
      ⟨bytesOf "b", rfl, by decide⟩
  refine ⟨fns', hfns', (hlist 4096).mpr (Or.inr ⟨rfl, rfl, 1, hforward, rfl⟩),
    (hlist 4101).mpr (Or.inr ⟨rfl, rfl, 1, hrelocated, rfl⟩), ?_⟩
  have hbackward := (hdirect _ _ _ _ callsText_backward ⟨rfl, rfl⟩).1 (by decide)
    ⟨0, Or.inl (by decide), by decide⟩
  exact fun h => absurd (hbackward.mp h) (by decide)

end Srcinv.Analysis
