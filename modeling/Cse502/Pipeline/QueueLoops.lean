import Cse502.Model.Decoder
import Cse502.Model.Dispatch
import Cse502.Model.Execute
import Mathlib.Tactic

/-!
# The loops over the uop queues

Two loops walk over the uops of one instruction: `Execute::work` patches their operands with the
two latest results before it runs the first of them, and `Dispatch::work` moves them to the next
queue. Both stop at the first uop of another instruction. The first has its results in the wrong
place where `prev_reg2` is a first operand, the second compares a growing counter with a shrinking
queue.
-/

namespace Cse502.Pipeline

open Dispatch (readOperands)

/-- The uops of the instruction at this address that come first. -/
def instruction (addr : Word) (us : List Uop) : List Uop := us.takeWhile fun u ↦ u.address = addr

/-- The uops behind them. -/
def behind (addr : Word) (us : List Uop) : List Uop := us.dropWhile fun u ↦ u.address = addr

theorem instruction_append_behind (addr : Word) (us : List Uop) :
    instruction addr us ++ behind addr us = us := List.takeWhile_append_dropWhile

section Cons

variable {addr : Word} {u : Uop} (us : List Uop)

theorem instruction_cons_of_eq (h : u.address = addr) :
    instruction addr (u :: us) = u :: instruction addr us :=
  List.takeWhile_cons_of_pos (p := fun u : Uop ↦ decide (u.address = addr)) (decide_eq_true h)

theorem instruction_cons_of_ne (h : u.address ≠ addr) : instruction addr (u :: us) = [] :=
  List.takeWhile_cons_of_neg (p := fun u : Uop ↦ decide (u.address = addr))
    (by rwa [decide_eq_true_eq])

theorem behind_cons_of_eq (h : u.address = addr) : behind addr (u :: us) = behind addr us :=
  List.dropWhile_cons_of_pos (p := fun u : Uop ↦ decide (u.address = addr)) (decide_eq_true h)

theorem behind_cons_of_ne (h : u.address ≠ addr) : behind addr (u :: us) = u :: us :=
  List.dropWhile_cons_of_neg (p := fun u : Uop ↦ decide (u.address = addr))
    (by rwa [decide_eq_true_eq])

end Cons

/-! ## Patching -/

/-- The more recent of the two results for a register, or the value the operand had. -/
def latestResult (ex : Execute) (r : Reg) (v : Word) : Word :=
  if r = ex.prevReg1 then ex.prevValue1 else if r = ex.prevReg2 then ex.prevValue2 else v

/-- The first two operands have been forwarded, each for its own register, and nothing else has
changed. -/
def Forwards (ex : Execute) (u u' : Uop) : Prop :=
  u' = { u with
    value1 := latestResult ex u.reg1 u.value1
    value2 := latestResult ex u.reg2 u.value2 }

/-- The uops of the front instruction have been forwarded, and the others are as they were. -/
def OnlyForwards (ex : Execute) (addr : Word) (us us' : List Uop) : Prop :=
  ∃ vs, us' = vs ++ behind addr us ∧ List.Forall₂ (Forwards ex) (instruction addr us) vs

/-- The uops that the loop patches right. A first operand that is `prev_reg2` only is not patched,
so it must have the result already, and `value2` gets that result in its place; a second operand
that is `prev_reg1` is not patched if the first one is too. -/
structure PatchHandled (ex : Execute) (u : Uop) : Prop where
  first : u.reg1 = ex.prevReg2 → u.reg1 ≠ ex.prevReg1 → u.value1 = ex.prevValue2
  second : u.reg1 = ex.prevReg1 → u.reg2 = ex.prevReg1 →
    (if ex.prevReg1 = ex.prevReg2 then ex.prevValue2 else u.value2) = ex.prevValue1
  other : u.reg1 = ex.prevReg2 → u.reg2 ≠ ex.prevReg1 → u.reg2 ≠ ex.prevReg2 →
    u.value2 = ex.prevValue2

/-- The loop patches the uops of the front instruction, one by one. -/
theorem patchLoop_eq (ex : Execute) (addr : Word) (us : List Uop) :
    Execute.patchLoop ex addr us =
      (instruction addr us).map (Execute.patchUop ex) ++ behind addr us := by
  induction us with
  | nil => rfl
  | cons u us ih =>
    rw [Execute.patchLoop]
    by_cases h : u.address = addr
    · rw [if_pos h, ih, instruction_cons_of_eq us h, behind_cons_of_eq us h]
      rfl
    · rw [if_neg h, instruction_cons_of_ne us h, behind_cons_of_ne us h]
      rfl

/-- One turn of the loop. -/
theorem forwards_patchUop_iff (ex : Execute) (u : Uop) :
    Forwards ex u (Execute.patchUop ex u) ↔ PatchHandled ex u := by
  have hpatch : Execute.patchUop ex u =
      { u with
        value1 := if u.reg1 = ex.prevReg1 then ex.prevValue1 else u.value1
        value2 :=
          if u.reg1 ≠ ex.prevReg1 ∧ u.reg2 = ex.prevReg1 then ex.prevValue1
          else if u.reg1 = ex.prevReg2 ∨ u.reg2 = ex.prevReg2 then ex.prevValue2
          else u.value2 } := by
    rw [Execute.patchUop]
    split_ifs <;> simp_all
  have hfields : ∀ {v1 v2 w1 w2 : Word}, ({ u with value1 := v1, value2 := v2 } : Uop) =
      { u with value1 := w1, value2 := w2 } ↔ v1 = w1 ∧ v2 = w2 := by
    intro v1 v2 w1 w2
    simp
  rw [Forwards, hpatch, hfields, latestResult, latestResult]
  constructor
  · rintro ⟨h1, h2⟩
    refine ⟨fun hreg1 hne ↦ ?_, fun hreg1 hreg2 ↦ ?_, fun hreg1 hne1 hne2 ↦ ?_⟩
    · rwa [if_neg hne, if_neg hne, if_pos hreg1] at h1
    · rw [if_neg fun hand ↦ hand.1 hreg1, if_pos hreg2] at h2
      simpa only [hreg1, hreg2, or_self] using h2
    · rwa [if_neg fun hand ↦ hne1 hand.2, if_pos (.inl hreg1), if_neg hne1, if_neg hne2,
        eq_comm] at h2
  · rintro ⟨hfirst, hsecond, hother⟩
    constructor
    · by_cases hreg1 : u.reg1 = ex.prevReg1
      · rw [if_pos hreg1, if_pos hreg1]
      · rw [if_neg hreg1, if_neg hreg1]
        split_ifs with hreg1'
        · exact hfirst hreg1' hreg1
        · rfl
    · by_cases hreg2 : u.reg2 = ex.prevReg1
      · rw [if_pos hreg2]
        by_cases hreg1 : u.reg1 = ex.prevReg1
        · rw [if_neg fun hand ↦ hand.1 hreg1]
          simpa only [hreg1, hreg2, or_self] using hsecond hreg1 hreg2
        · rw [if_pos ⟨hreg1, hreg2⟩]
      · rw [if_neg fun hand ↦ hreg2 hand.2, if_neg hreg2]
        by_cases hreg2' : u.reg2 = ex.prevReg2
        · rw [if_pos (.inr hreg2'), if_pos hreg2']
        · rw [if_neg hreg2']
          split_ifs with hreg1
          · exact (hother (hreg1.resolve_right hreg2') hreg2 hreg2').symm
          · rfl

/-- **When the patching loop only forwards.** -/
theorem onlyForwards_iff (ex : Execute) (addr : Word) (us : List Uop) :
    OnlyForwards ex addr us (Execute.patchLoop ex addr us) ↔
      ∀ u ∈ instruction addr us, PatchHandled ex u := by
  have hforall : List.Forall₂ (Forwards ex) (instruction addr us)
      ((instruction addr us).map (Execute.patchUop ex)) ↔
        ∀ u ∈ instruction addr us, PatchHandled ex u := by
    rw [List.forall₂_map_right_iff, List.forall₂_same]
    exact forall₂_congr fun u _ ↦ forwards_patchUop_iff ex u
  rw [← hforall, patchLoop_eq]
  constructor
  · rintro ⟨vs, heq, hvs⟩
    rwa [List.append_cancel_right heq]
  · exact fun h ↦ ⟨_, rfl, h⟩

/-- `mov rbx, rax` with 5 and 7 in its operands, while the two latest results are 1 for RAX and,
after it, 2 for RCX: the result for RAX ends up in the operand that is RBX. -/
theorem not_onlyForwards_movRbxRax :
    let ex : Execute := { Execute.init 0 Uop.zero with
      prevReg1 := .gpr .rcx, prevValue1 := 2, prevReg2 := .gpr .rax, prevValue2 := 1 }
    let u : Uop := { Uop.zero with
      src := .reg, opcode := .mov, reg1 := .gpr .rax, value1 := 5, reg2 := .gpr .rbx, value2 := 7 }
    ¬OnlyForwards ex 0 [u] (Execute.patchLoop ex 0 [u]) := by
  rintro ex u ⟨vs, heq, hvs⟩
  have hpatched : Execute.patchLoop ex 0 [u] = [{ u with value2 := 1 }] := by decide
  have hforward : vs = [{ u with value1 := 1 }] := by
    have hbehind : instruction 0 [u] = [u] := by decide
    rw [hbehind, List.forall₂_cons_left_iff] at hvs
    obtain ⟨v, vs', hv, hnil, rfl⟩ := hvs
    rw [List.forall₂_nil_left_iff.mp hnil, hv]
    rfl
  rw [hpatched, hforward] at heq
  revert heq
  decide

/-! ## Moving -/

/-- How many uops the loop of `Dispatch::work` moves. -/
theorem loop_eq_min (rf : Arf) (addr : Word) (i : ℕ) (dd de : List Uop) :
    Dispatch.loop rf addr i dd de =
      (dd.drop (min (instruction addr dd).length ((dd.length - i + 1) / 2)),
        de ++ (dd.take (min (instruction addr dd).length ((dd.length - i + 1) / 2))).map
          (readOperands rf)) := by
  induction dd generalizing i de with
  | nil => simp [Dispatch.loop]
  | cons u dd ih =>
    rw [Dispatch.loop]
    by_cases haddr : u.address = addr
    · have hlength : (instruction addr (u :: dd)).length = (instruction addr dd).length + 1 := by
        rw [instruction_cons_of_eq dd haddr, List.length_cons]
      by_cases hi : i < (u :: dd).length
      · -- the queue is one shorter and the counter one larger
        have hhalf : ((u :: dd).length - i + 1) / 2 = (dd.length - (i + 1) + 1) / 2 + 1 := by
          rw [List.length_cons] at hi ⊢
          omega
        rw [if_pos ⟨hi, haddr⟩, ih, hlength, hhalf, Nat.add_min_add_right, List.drop_succ_cons,
          List.take_succ_cons, List.map_cons, List.append_assoc, List.singleton_append]
      · have hzero : ((u :: dd).length - i + 1) / 2 = 0 := by omega
        rw [if_neg fun hand ↦ hi hand.1, hzero, Nat.min_zero]
        simp
    · rw [if_neg fun hand ↦ haddr hand.2, instruction_cons_of_ne dd haddr, List.length_nil,
        Nat.zero_min]
      simp

/-- The uops of the front instruction have been moved, with their operands, and no others. -/
structure MovesInstruction (addr : Word) (c c' : Core) : Prop where
  moved : c'.deUopQueue = (instruction addr c.ddUopQueue).map (readOperands c.regfile)
  left : c'.ddUopQueue = behind addr c.ddUopQueue

/-- **When `Dispatch` moves a whole instruction**: it has at most one uop more than there are behind
it. -/
theorem work_movesInstruction_iff {cur : Signals} {c : Core} {front : Uop} {rest : List Uop}
    (hreset : cur.reset = false) (hclear : cur.clear = false) (hready : cur.ddOutReady = true)
    (hdd : c.ddUopQueue = front :: rest) (hde : c.deUopQueue = []) :
    MovesInstruction front.address c (Dispatch.work cur c) ↔
      (instruction front.address c.ddUopQueue).length ≤
        (behind front.address c.ddUopQueue).length + 1 := by
  obtain ⟨k, hk⟩ : ∃ k, k = min (instruction front.address c.ddUopQueue).length
    ((c.ddUopQueue.length + 1) / 2) := ⟨_, rfl⟩
  have hqueues : (Dispatch.work cur c).ddUopQueue = c.ddUopQueue.drop k ∧
      (Dispatch.work cur c).deUopQueue = (c.ddUopQueue.take k).map (readOperands c.regfile) := by
    have hloop := loop_eq_min c.regfile front.address 0 c.ddUopQueue []
    rw [Nat.sub_zero, ← hk, List.nil_append] at hloop
    rw [hdd] at hloop
    simp only [Dispatch.work, hreset, hclear, hready, hdd, hde, Bool.false_eq_true, if_false,
      Bool.not_true, List.length_nil, lt_irrefl, hloop, and_self]
  have hsplit := instruction_append_behind front.address c.ddUopQueue
  have hlength := congrArg List.length hsplit
  rw [List.length_append] at hlength
  constructor
  · rintro ⟨hmoved, -⟩
    have hmoved' := congrArg List.length (hqueues.2.symm.trans hmoved)
    rw [List.length_map, List.length_map, List.length_take] at hmoved'
    omega
  · intro hle
    have hk' : k = (instruction front.address c.ddUopQueue).length := by omega
    refine ⟨?_, ?_⟩
    · rw [hqueues.2, hk']
      nth_rewrite 2 [← hsplit]
      rw [List.take_left']
      rfl
    · rw [hqueues.1, hk']
      nth_rewrite 2 [← hsplit]
      rw [List.drop_left']
      rfl

/-- The uops of `mov rax, [rbx]`. -/
private def loadUops (address : Word) : List Uop :=
  Decoder.crackAt (fun _ ↦ ⟨0, 0, 0⟩) address 3
    ⟨.mov, { Decoder.Operand.none with type := .reg, size := 64, base := .gpr .rax },
      { Decoder.Operand.none with type := .mem, size := 64, base := .gpr .rbx }, .none⟩

/-- The core with these uops in the first queue. -/
private def queued (us : List Uop) : Core :=
  { Core.boot (fun _ ↦ 0x2000) ⟨0⟩ (fun _ ↦ 0) (.init 0 Uop.zero) with ddUopQueue := us }

theorem work_movesInstruction_twoLoads :
    MovesInstruction ((loadUops 0x1000).headD Uop.zero).address
      (queued (loadUops 0x1000 ++ loadUops 0x1003))
      (Dispatch.work { Signals.zero with ddOutReady := true }
        (queued (loadUops 0x1000 ++ loadUops 0x1003))) := by
  have hdd : (queued (loadUops 0x1000 ++ loadUops 0x1003)).ddUopQueue =
      (loadUops 0x1000).headD Uop.zero :: ((loadUops 0x1000).tail ++ loadUops 0x1003) := by decide
  exact (work_movesInstruction_iff rfl rfl rfl hdd rfl).mpr (by decide)

/-- Alone in the queue, the load is torn apart: two of its three uops move. -/
theorem not_work_movesInstruction_oneLoad :
    ¬MovesInstruction 0x1000 (queued (loadUops 0x1000))
      (Dispatch.work { Signals.zero with ddOutReady := true } (queued (loadUops 0x1000))) := by
  rintro ⟨-, hleft⟩
  revert hleft
  decide

end Cse502.Pipeline
