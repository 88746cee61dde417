import Cse502.Library.HexText
import Cse502.Model.Common

/-!
# Cracking instructions into uops

`decoder.cc`, the half of `Decoder` that turns disassembled instructions into uops:
`sign_extend`, `push2q` and `crack_opcodes`. An instruction is what udis86 reports of it, a
mnemonic and three operands.

`push2q` fills in a `struct uop` on the stack and leaves the three operand values as they are. What
was in that memory is a parameter, one record for every uop pushed.
-/

namespace Cse502.Decoder

/-! ## Instructions as udis86 reports them -/

/-- `UD_NONE` and the `UD_OP_*` operand types. -/
inductive OperandType
  | none | reg | mem | ptr | imm | jimm | const
  deriving DecidableEq, Repr

/-- `ud_obj.operand[i]`, with `lval` for `lval.uqword`. For a memory operand `offset` is the size of
the displacement, which `lval` holds; for an immediate `size` is its size. -/
structure Operand where
  type : OperandType
  size : ℕ
  base : Reg
  index : Reg
  scale : ℕ
  offset : ℕ
  lval : Word
  deriving DecidableEq, Repr

/-- An operand that is not there. -/
def Operand.none : Operand := ⟨.none, 0, .none, .none, 0, 0, 0⟩

/-- `ud_t`. -/
structure Ud where
  mnemonic : Mnemonic
  operand0 : Operand
  operand1 : Operand
  operand2 : Operand
  deriving DecidableEq, Repr

/-! ## Immediates -/

/-- `Decoder::sign_extend`. The size is compared with the length of the hexadecimal text, and `1` is
an `int`, so for a size of 64 the host shifts by 31. -/
def signExtend (immedVal : Word) (size : ℕ) : Word :=
  let o := Nat.toDigits 16 immedVal.toNat
  let numBits := o.length * 4
  if numBits = size then
    let one := BitVec.twoPow 32 ((size - 1) % 32)
    let msb : BitVec 32 := (one.signExtend 64 &&& immedVal).setWidth 32
    let ch1 := if msb ≠ 0 then 'f' else '0'
    BitVec.ofNat 64 (HexText.value (List.replicate (16 - o.length) ch1 ++ o))
  else immedVal

/-- The assignment of a `uint64_t` to `int offset`, and back to `uint64_t` as an argument. -/
def toOffset (v : Word) : Word := (v.setWidth 32).signExtend 64

/-! ## Pushing uops -/

/-- The arguments of one call of `push2q`. -/
structure Push where
  mnemonic : Mnemonic
  reg1 : Reg
  reg2 : Reg
  reg3 : Reg
  immedVal : Word
  source : SrcType
  deriving DecidableEq, Repr

/-- The operand values `push2q` leaves as they were on the stack. -/
structure Uninit where
  value1 : Word
  value2 : Word
  value3 : Word
  deriving DecidableEq, Repr

/-- The uop `Decoder::push2q` pushes, for the front of `addr_q` and of `size_bytes`. -/
def push2q (u : Uninit) (address : Word) (size : ℕ) (p : Push) : Uop where
  src := p.source
  address := address
  opcode := p.mnemonic
  reg1 := p.reg1
  value1 := u.value1
  reg2 := p.reg2
  value2 := u.value2
  reg3 := p.reg3
  value3 := u.value3
  immed := p.immedVal
  opsize := size

/-! ## The branches of `crack_opcodes` -/

/-- `imul`, handled before the operands are looked at. -/
def crackImul (ud : Ud) : List Push :=
  let thirdOperand :=
    if ud.operand2.type ≠ .none then (if ud.operand2.type = .reg then 1 else 2) else 0
  let secondOperand :=
    if ud.operand1.type ≠ .none then (if ud.operand1.type = .reg then 1 else 2) else 0
  if thirdOperand = 1 then
    [⟨ud.mnemonic, ud.operand1.base, ud.operand0.base, ud.operand2.base, 0, .imul3⟩]
  else if thirdOperand = 2 then
    [⟨ud.mnemonic, ud.operand1.base, ud.operand0.base, .none,
      signExtend ud.operand2.lval ud.operand2.size, .imul3⟩]
  else if secondOperand = 1 then
    [⟨ud.mnemonic, ud.operand1.base, ud.operand0.base, .none, 0, .imul2r⟩]
  else if secondOperand = 2 then
    [⟨ud.mnemonic, .none, ud.operand0.base, .none,
      signExtend ud.operand2.lval ud.operand2.size, .imul2i⟩]
  else
    [⟨ud.mnemonic, ud.operand0.base, .none, .none, 0, .imul1⟩]

/-- Add the displacement, whose sign-extended value went through an `int`. -/
def addOffset (o : Operand) : Push :=
  ⟨.add, .none, .loadStoreReg, .none, toOffset (signExtend o.lval o.offset), .immed⟩

/-- The address uops of the path without an index register. -/
def addressNoIndex (o : Operand) : List Push :=
  ⟨.mov, o.base, .loadStoreReg, .none, 0, .reg⟩ ::
    (if toOffset (signExtend o.lval o.offset) ≠ 0 then [addOffset o] else [])

/-- The address uops when the base is also the index. -/
def addressBaseIndex (o : Operand) : List Push :=
  ⟨.mov, o.base, .loadStoreReg, .none, 0, .reg⟩ ::
    ((if o.scale ≠ 0 then
        [⟨.imul, .none, .loadStoreReg, .none, BitVec.ofNat 64 (o.scale + 1), .loadmul⟩]
      else []) ++
    (if o.offset ≠ 0 then [addOffset o] else []))

/-- The address uops in general: the index, scaled, then the base and the displacement. -/
def addressGeneral (o : Operand) : List Push :=
  ⟨.mov, o.index, .loadStoreReg, .none, 0, .reg⟩ ::
    ((if o.scale ≠ 0 then
        [⟨.imul, .none, .loadStoreReg, .none, BitVec.ofNat 64 o.scale, .loadmul⟩]
      else []) ++
    ((if o.base ≠ .none then [⟨.add, o.base, .loadStoreReg, .none, 0, .reg⟩] else []) ++
    (if o.offset ≠ 0 then [addOffset o] else [])))

/-- `load` from the address in `load_store_reg`. -/
def pushLoad : Push := ⟨.load, .loadStoreReg, .scratchregls, .none, 0, .reg⟩

/-- `store` to the address in `load_store_reg`. -/
def pushStore : Push := ⟨.store, .scratchregls, .loadStoreReg, .none, 0, .reg⟩

/-- `cmp` and `test` load first, wherever the memory operand stands. -/
def crackCompare (ud : Ud) (oj : Operand) : List Push :=
  [pushLoad,
    if oj.base ≠ .none then ⟨ud.mnemonic, .scratchregls, oj.base, .none, 0, .reg⟩
    else ⟨ud.mnemonic, .none, .scratchregls, .none, signExtend oj.lval oj.size, .immed⟩]

/-- A load and the operation that uses it. -/
def crackLoad (ud : Ud) : List Push :=
  [pushLoad, ⟨ud.mnemonic, .scratchregls, ud.operand0.base, .none, 0, .reg⟩]

/-- The operation and its store in the path without an index register, which takes the source for a
register. -/
def crackStoreNoIndex (ud : Ud) : List Push :=
  [⟨ud.mnemonic, ud.operand1.base, .scratchregls, .none, 0, .reg⟩, pushStore]

/-- The operation and its store in the two paths with an index register. -/
def crackStoreIndex (ud : Ud) (oj : Operand) : List Push :=
  [if oj.base ≠ .none then ⟨ud.mnemonic, oj.base, .scratchregls, .none, 0, .reg⟩
    else ⟨ud.mnemonic, .none, .scratchregls, .none, signExtend oj.lval oj.size, .immed⟩,
    pushStore]

/-- `lea` moves the address to a register. -/
def crackLea (dst : Reg) : List Push := [⟨.mov, .loadStoreReg, dst, .none, 0, .reg⟩]

/-- An instruction with a memory operand. -/
def crackMemory (ud : Ud) : List Push :=
  let oi := if ud.operand0.type = .mem then ud.operand0 else ud.operand1
  let oj := if ud.operand0.type = .mem then ud.operand1 else ud.operand0
  let loadOStore : Mnemonic :=
    if ud.operand1.type = .none then .load
    else if ud.mnemonic = .lea then .lea
    else if ud.operand0.type = .mem then .store else .load
  -- the three paths test for `lea`, comparisons, loads and stores in different orders
  if oi.index = .none then
    addressNoIndex oi ++
      (if ud.mnemonic = .cmp ∨ ud.mnemonic = .test then crackCompare ud oj
      else if loadOStore = .load then crackLoad ud
      else if loadOStore = .store then crackStoreNoIndex ud
      else crackLea ud.operand0.base)
  else if oi.base = oi.index then
    addressBaseIndex oi ++
      (if ud.mnemonic = .lea then crackLea ud.operand0.base
      else if ud.mnemonic = .cmp ∨ ud.mnemonic = .test then crackCompare ud oj
      else if loadOStore = .load then crackLoad ud
      else crackStoreIndex ud oj)
  else
    addressGeneral oi ++
      (if ud.mnemonic = .lea then crackLea oj.base
      else if ud.mnemonic = .cmp ∨ ud.mnemonic = .test then crackCompare ud oj
      else if loadOStore = .load then crackLoad ud
      else crackStoreIndex ud oj)

/-- The body of the loop of `crack_opcodes`. `none` is the fall through the bottom of the `if`
chain, which neither pushes a uop nor advances `addr_q` and `size_bytes`. -/
def crack (ud : Ud) : Option (List Push) :=
  if ud.operand0.type = .none ∧ ud.operand1.type = .none then
    some [⟨ud.mnemonic, .none, .none, .none, 0, .noSrc⟩]
  else if ud.mnemonic = .imul then some (crackImul ud)
  else if ud.operand0.type = .reg ∧ ud.operand1.type = .reg then
    some [⟨ud.mnemonic, ud.operand1.base, ud.operand0.base, .none, 0, .reg⟩]
  else if ud.operand0.type = .jimm then
    some [⟨ud.mnemonic, .none, .none, .none, signExtend ud.operand0.lval ud.operand0.size, .immed⟩]
  else if ud.operand1.type = .none ∧ ud.operand0.type ≠ .mem then
    -- an immediate too: it has no base register
    if ud.mnemonic = .pop then some [⟨ud.mnemonic, .none, ud.operand0.base, .none, 0, .reg⟩]
    else some [⟨ud.mnemonic, ud.operand0.base, .none, .none, 0, .reg⟩]
  else if ud.operand0.type = .reg ∧ ud.operand1.type = .const then
    some [⟨ud.mnemonic, .none, ud.operand0.base, .none, 1, .immed⟩]
  else if ud.operand1.type = .imm ∧ ud.operand0.type = .reg then
    some [⟨ud.mnemonic, .none, ud.operand0.base, .none,
      signExtend ud.operand1.lval ud.operand1.size, .immed⟩]
  else if ud.operand1.type = .mem ∨ ud.operand0.type = .mem then some (crackMemory ud)
  else none

/-! ## The loop -/

/-- What `crack_opcodes` works on: `size_bytes`, `addr_q`, and the uops pushed so far. -/
structure Queues where
  sizeBytes : List ℕ
  addrQ : List Word
  pushed : List Uop
  deriving DecidableEq, Repr

/-- One turn of the loop. The front of an empty queue is undefined; the model reads zero there. -/
def crackStep (uninit : ℕ → Uninit) (q : Queues) (ud : Ud) : Queues :=
  match crack ud with
  | some ps =>
    { sizeBytes := q.sizeBytes.tail
      addrQ := q.addrQ.tail
      pushed := q.pushed ++ ps.mapIdx fun i p ↦
        push2q (uninit (q.pushed.length + i)) (q.addrQ.headD 0) (q.sizeBytes.headD 0) p }
  | none => q

/-- `Decoder::crack_opcodes`. -/
def crackOpcodes (uninit : ℕ → Uninit) (q : Queues) (opcodes : List Ud) : Queues :=
  opcodes.foldl (crackStep uninit) q

/-- The uops one instruction is cracked into, at a given address. -/
def crackAt (uninit : ℕ → Uninit) (address : Word) (size : ℕ) (ud : Ud) : List Uop :=
  (crackOpcodes uninit ⟨[size], [address], []⟩ [ud]).pushed

theorem crackAt_eq (uninit : ℕ → Uninit) (address : Word) (size : ℕ) {ud : Ud} {ps : List Push}
    (h : crack ud = some ps) :
    crackAt uninit address size ud = ps.mapIdx fun i p ↦ push2q (uninit i) address size p := by
  simp only [crackAt, crackOpcodes, List.foldl_cons, List.foldl_nil, crackStep, h,
    List.nil_append, List.length_nil, Nat.zero_add, List.headD_cons]

/-! ## What `sign_extend` computes -/

/-- A text of 16 digits is filled with none. -/
theorem ofNat_value_fill {v : Word} (hlen : (Nat.toDigits 16 v.toNat).length * 4 = 64)
    (ch1 : Char) :
    BitVec.ofNat 64 (HexText.value (List.replicate (16 - (Nat.toDigits 16 v.toNat).length) ch1 ++
      Nat.toDigits 16 v.toNat)) = v := by
  have h16 : 16 - (Nat.toDigits 16 v.toNat).length = 0 := by omega
  rw [h16, List.replicate_zero, List.nil_append, HexText.value_toDigits, BitVec.ofNat_toNat,
    BitVec.setWidth_eq]

theorem signExtend_64 (v : Word) : signExtend v 64 = v := by
  by_cases hlen : (Nat.toDigits 16 v.toNat).length * 4 = 64
  · exact (if_pos hlen).trans (ofNat_value_fill hlen _)
  · exact if_neg hlen

/-- The mask `1 << (size - 1)` picks the sign bit. -/
private theorem mask_ne_zero_iff {v : Word} {n : ℕ} (hn : n < 32) :
    ((BitVec.twoPow 32 n).signExtend 64 &&& v).setWidth 32 ≠ 0 ↔ v.getLsbD n = true := by
  have hand : ((BitVec.twoPow 32 n).signExtend 64 &&& v).setWidth 32 =
      BitVec.twoPow 32 n &&& v.setWidth 32 := by
    ext i hi
    have hi64 : i < 64 := by omega
    simp [BitVec.getElem_signExtend, hi, hi64]
  have hbit : (v.setWidth 32).getLsbD n = v.getLsbD n := by
    rw [BitVec.getLsbD_setWidth, decide_eq_true hn, Bool.true_and]
  rw [hand, BitVec.twoPow_and, hbit]
  cases v.getLsbD n with
  | false => simp
  | true =>
    have hne : BitVec.twoPow 32 n ≠ 0 := by
      intro h
      have := congrArg (fun x : BitVec 32 ↦ x.getLsbD n) h
      simp [hn] at this
    simpa using hne

/-- Filling up with `f` digits adds the ones above the number. -/
private theorem value_fill {k : ℕ} (hk : k ≤ 16) {o : List Char} (ho : o.length = k) :
    HexText.value (List.replicate (16 - k) 'f' ++ o) + 16 ^ k = 2 ^ 64 + HexText.value o := by
  have hfill := HexText.value_replicate (16 - k) 'f'
  have hf : HexText.digitValue 'f' = 15 := rfl
  rw [hf] at hfill
  have hval : HexText.value (List.replicate (16 - k) 'f') = 16 ^ (16 - k) - 1 := by omega
  have hpow : 16 ^ (16 - k) * 16 ^ k = 2 ^ 64 := by
    rw [← Nat.pow_add, Nat.sub_add_cancel hk]
    norm_num
  have hone : 1 ≤ 16 ^ (16 - k) := Nat.one_le_pow _ _ (by omega)
  rw [HexText.value_append, ho, hval, Nat.sub_mul, hpow]
  have : 1 * 16 ^ k ≤ 2 ^ 64 := by
    rw [← hpow]
    exact Nat.mul_le_mul_right _ hone
  omega

/-- Filling up with `0` digits changes nothing. -/
private theorem value_fill_zero (n : ℕ) (o : List Char) :
    HexText.value (List.replicate n '0' ++ o) = HexText.value o := by
  have hfill := HexText.value_replicate n '0'
  have hzero : HexText.digitValue '0' = 0 := rfl
  rw [hzero, Nat.zero_mul] at hfill
  rw [HexText.value_append, show HexText.value (List.replicate n '0') = 0 by omega, Nat.zero_mul,
    Nat.zero_add]

/-- **`sign_extend` is sign extension** for a value that fits its size. -/
theorem signExtend_eq {v : Word} {size : ℕ} (hsize : size = 8 ∨ size = 16 ∨ size = 32)
    (hv : v.toNat < 2 ^ size) : signExtend v size = (v.setWidth size).signExtend 64 := by
  obtain ⟨k, hk, hk8, rfl⟩ : ∃ k, 0 < k ∧ k < 8 ∧ size = 4 * (k + 1) := by
    rcases hsize with rfl | rfl | rfl
    · exact ⟨1, by omega, by omega, rfl⟩
    · exact ⟨3, by omega, by omega, rfl⟩
    · exact ⟨7, by omega, by omega, rfl⟩
  have hpow : ∀ n : ℕ, (2 : ℕ) ^ (4 * n) = 16 ^ n := fun n ↦ by rw [Nat.pow_mul]
  have hmod : (4 * (k + 1) - 1) % 32 = 4 * (k + 1) - 1 := Nat.mod_eq_of_lt (by omega)
  have hmask := mask_ne_zero_iff (v := v) (n := 4 * (k + 1) - 1) (by omega)
  have hmsb : (v.setWidth (4 * (k + 1))).msb = v.getLsbD (4 * (k + 1) - 1) := by
    rw [BitVec.msb_eq_getLsbD_last, BitVec.getLsbD_setWidth]
    simp
  have hsetWidth : ((v.setWidth (4 * (k + 1))).setWidth 64).toNat = v.toNat := by
    rw [BitVec.toNat_setWidth, BitVec.toNat_setWidth, Nat.mod_eq_of_lt hv,
      Nat.mod_eq_of_lt v.isLt]
  have hlength := HexText.length_toDigits_eq_iff (n := v.toNat) hk
  have hvalue := HexText.value_toDigits v.toNat
  rw [hpow] at hv
  apply BitVec.eq_of_toNat_eq
  rw [BitVec.toNat_signExtend, hsetWidth, hmsb, signExtend]
  dsimp only
  rw [hmod]
  generalize Nat.toDigits 16 v.toNat = o at hlength hvalue ⊢
  by_cases hnum : o.length * 4 = 4 * (k + 1)
  · -- the leading digit is there, and its top bit is the sign
    have hlen : o.length = k + 1 := by omega
    rw [if_pos hnum, hlen]
    by_cases hbit : v.getLsbD (4 * (k + 1) - 1) = true
    · have hfill := value_fill (k := k + 1) (by omega) hlen
      have hle : 16 ^ (k + 1) ≤ 16 ^ 16 := Nat.pow_le_pow_right (by omega) (by omega)
      rw [if_pos (hmask.mpr hbit), if_pos hbit, BitVec.toNat_ofNat, hpow]
      omega
    · rw [if_neg (mt hmask.mp hbit), if_neg hbit, BitVec.toNat_ofNat, value_fill_zero, hvalue]
      exact Nat.mod_eq_of_lt v.isLt
  · -- the text is shorter, so the sign is not set
    have hlt : v.toNat < 16 ^ k := by
      by_contra hge
      exact hnum (by rw [hlength.mpr ⟨by omega, hv⟩]; omega)
    have hbit : ¬v.getLsbD (4 * (k + 1) - 1) = true := by
      rw [BitVec.getLsbD, Nat.testBit_lt_two_pow]
      · exact Bool.false_ne_true
      · rw [← hpow] at hlt
        exact hlt.trans_le (Nat.pow_le_pow_right (by omega) (by omega))
    rw [if_neg hnum, if_neg hbit, Nat.add_zero]

end Cse502.Decoder
