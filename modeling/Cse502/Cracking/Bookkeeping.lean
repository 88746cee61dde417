import Cse502.Model.Decoder
import Mathlib.Tactic

/-!
# The queues of addresses and sizes

`decode_opcodes` queues the address and the size of every instruction it disassembles, and
`crack_opcodes` takes the front of both queues for the uops of the instruction it is at. Each
branch pops the two queues itself. The `if` chain has no last `else`: an instruction whose
operands match no branch leaves its own address and size to the one behind it.
-/

namespace Cse502.Cracking

open Decoder (OperandType Ud Push Uninit Queues crack crackStep crackOpcodes push2q)

/-- A disassembled instruction with the address and the size that were queued for it. -/
structure Queued where
  ud : Ud
  address : Word
  size : ℕ
  deriving DecidableEq, Repr

/-- The queues `decode_opcodes` has filled for a block, with the uops of earlier blocks. -/
def filled (pushed : List Uop) (insns : List Queued) : Queues :=
  ⟨insns.map (·.size), insns.map (·.address), pushed⟩

/-- The queues after the first `k` instructions. -/
def crackedUpTo (uninit : ℕ → Uninit) (pushed : List Uop) (insns : List Queued) (k : ℕ) : Queues :=
  crackOpcodes uninit (filled pushed insns) ((insns.take k).map (·.ud))

/-- The queues `q'` are `q` without the entry of the instruction `insn`, whose uops carry it. -/
structure Advances (q q' : Queues) (insn : Queued) : Prop where
  sizeBytes : q.sizeBytes = insn.size :: q'.sizeBytes
  addrQ : q.addrQ = insn.address :: q'.addrQ
  pushed : ∃ new, q'.pushed = q.pushed ++ new ∧
    ∀ u ∈ new, u.address = insn.address ∧ u.opsize = insn.size

/-- Every instruction takes its own entry off both queues and puts it into its uops, and nothing is
left at the end. -/
structure KeepsBooks (uninit : ℕ → Uninit) (pushed : List Uop) (insns : List Queued) : Prop where
  advances : ∀ (k : ℕ) (hk : k < insns.length),
    Advances (crackedUpTo uninit pushed insns k) (crackedUpTo uninit pushed insns (k + 1)) insns[k]
  sizeBytes_nil : (crackedUpTo uninit pushed insns insns.length).sizeBytes = []
  addrQ_nil : (crackedUpTo uninit pushed insns insns.length).addrQ = []

/-- The operands match a branch of the `if` chain. -/
def Matched (ud : Ud) : Prop :=
  ud.mnemonic = .imul ∨ ud.operand0.type = .jimm ∨ ud.operand0.type = .mem ∨
    ud.operand1.type = .none ∨ ud.operand1.type = .mem ∨
    (ud.operand0.type = .reg ∧
      (ud.operand1.type = .reg ∨ ud.operand1.type = .imm ∨ ud.operand1.type = .const))

instance : DecidablePred Matched := fun ud ↦
  inferInstanceAs (Decidable (ud.mnemonic = .imul ∨ ud.operand0.type = .jimm ∨ _))

/-- Matched operands are the ones some branch takes. -/
theorem isSome_crack_iff (ud : Ud) : (crack ud).isSome = true ↔ Matched ud := by
  rw [crack, Matched]
  rcases h0 : ud.operand0.type <;> rcases h1 : ud.operand1.type <;>
    by_cases hmul : ud.mnemonic = .imul <;> by_cases hpop : ud.mnemonic = .pop <;> simp [hmul, hpop]

/-! ## One instruction -/

/-- A matched instruction takes its entries. -/
theorem advances_crackStep (uninit : ℕ → Uninit) {q : Queues} {insn : Queued}
    (hmatched : Matched insn.ud) {sizes : List ℕ} {addrs : List Word}
    (hsizes : q.sizeBytes = insn.size :: sizes) (haddrs : q.addrQ = insn.address :: addrs) :
    Advances q (crackStep uninit q insn.ud) insn := by
  obtain ⟨ps, hps⟩ := Option.isSome_iff_exists.mp ((isSome_crack_iff insn.ud).mpr hmatched)
  have hstep : crackStep uninit q insn.ud = ⟨sizes, addrs, q.pushed ++ ps.mapIdx fun i p ↦
      push2q (uninit (q.pushed.length + i)) insn.address insn.size p⟩ := by
    rw [crackStep, hps, hsizes, haddrs]
    rfl
  rw [hstep]
  refine ⟨hsizes, haddrs, _, rfl, fun u hu ↦ ?_⟩
  obtain ⟨i, hi, rfl⟩ := List.mem_mapIdx.mp hu
  exact ⟨rfl, rfl⟩

/-- An instruction without a branch changes nothing, so it does not advance. -/
theorem not_advances_crackStep (uninit : ℕ → Uninit) {q : Queues} {insn : Queued}
    (hmatched : ¬Matched insn.ud) : ¬Advances q (crackStep uninit q insn.ud) insn := by
  intro h
  have hnone : crack insn.ud = none := by
    rw [← Option.not_isSome_iff_eq_none]
    exact mt (isSome_crack_iff insn.ud).mp hmatched
  have hstep : crackStep uninit q insn.ud = q := by rw [crackStep, hnone]
  have hlength := congrArg List.length h.sizeBytes
  rw [hstep, List.length_cons] at hlength
  omega

/-! ## The loop -/

section Loop

variable (uninit : ℕ → Uninit) (pushed : List Uop) (insns : List Queued)

/-- One turn of the loop is the next instruction. -/
theorem crackedUpTo_succ {k : ℕ} (hk : k < insns.length) :
    crackedUpTo uninit pushed insns (k + 1) =
      crackStep uninit (crackedUpTo uninit pushed insns k) insns[k].ud := by
  rw [crackedUpTo, crackedUpTo, List.take_add_one, List.getElem?_eq_getElem hk, Option.toList_some,
    List.map_append, crackOpcodes, List.foldl_append]
  rfl

/-- The queues are the entries of the instructions still to come, as long as all the ones before
matched a branch. -/
theorem crackedUpTo_queues (hmatched : ∀ insn ∈ insns, Matched insn.ud) :
    ∀ k ≤ insns.length,
      (crackedUpTo uninit pushed insns k).sizeBytes = (insns.drop k).map (·.size) ∧
      (crackedUpTo uninit pushed insns k).addrQ = (insns.drop k).map (·.address) := by
  intro k
  induction k with
  | zero =>
    intro _
    exact ⟨rfl, rfl⟩
  | succ k ih =>
    intro hk
    obtain ⟨hsizes, haddrs⟩ := ih (by omega)
    rw [List.drop_eq_getElem_cons hk, List.map_cons] at hsizes haddrs
    have hadvances := advances_crackStep uninit (hmatched _ (List.getElem_mem hk)) hsizes haddrs
    rw [← crackedUpTo_succ uninit pushed insns hk] at hadvances
    have hsizes' := hadvances.sizeBytes
    have haddrs' := hadvances.addrQ
    rw [hsizes] at hsizes'
    rw [haddrs] at haddrs'
    exact ⟨(List.cons.inj hsizes').2.symm, (List.cons.inj haddrs').2.symm⟩

/-- **When the queues stay aligned**: exactly when every instruction of the block has a branch. -/
theorem keepsBooks_iff : KeepsBooks uninit pushed insns ↔ ∀ insn ∈ insns, Matched insn.ud := by
  constructor
  · intro h insn hinsn
    obtain ⟨k, hk, rfl⟩ := List.getElem_of_mem hinsn
    have hadvances := h.advances k hk
    rw [crackedUpTo_succ uninit pushed insns hk] at hadvances
    by_contra hmatched
    exact not_advances_crackStep uninit hmatched hadvances
  · intro hmatched
    have hqueues := crackedUpTo_queues uninit pushed insns hmatched
    obtain ⟨hsizes, haddrs⟩ := hqueues insns.length le_rfl
    rw [List.drop_length] at hsizes haddrs
    refine ⟨fun k hk ↦ ?_, hsizes, haddrs⟩
    obtain ⟨hsizes, haddrs⟩ := hqueues k hk.le
    rw [List.drop_eq_getElem_cons hk, List.map_cons] at hsizes haddrs
    rw [crackedUpTo_succ uninit pushed insns hk]
    exact advances_crackStep uninit (hmatched _ (List.getElem_mem hk)) hsizes haddrs

end Loop

/-- `out %al, $0x80` followed by `ret`: no branch takes an immediate and a register, so the `ret`
gets the address of the `out`. -/
theorem not_keepsBooks_out : ¬KeepsBooks (fun _ ↦ ⟨0, 0, 0⟩) []
    [⟨⟨.other 0, { Decoder.Operand.none with type := .imm, size := 8, lval := 0x80 },
        { Decoder.Operand.none with type := .reg, size := 8, base := .other 0 },
        Decoder.Operand.none⟩, 0x1000, 2⟩,
      ⟨⟨.ret, Decoder.Operand.none, Decoder.Operand.none, Decoder.Operand.none⟩, 0x1002, 1⟩] := by
  intro h
  have hend := h.addrQ_nil
  revert hend
  decide

end Cse502.Cracking
