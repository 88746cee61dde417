import Cse502.Model.Decoder
import Cse502.Pipeline.Squash

/-!
# The programs that the decoder makes

Of the uops of an instruction, those that the squashing depends on stand where they have to: a jump
has its target in a register or an immediate, a `pop` is pushed last, and a `load` neither first nor
last. This is so for everything that `crack_opcodes` cracks, as long as udis86 reports a jump with
an operand and a `pop` with one at most. It knows no instruction of the name `load`.
-/

namespace Cse502.Pipeline

open Decoder (Ud Push Uninit Operand crack crackAt)
open Execute (jumps)

/-! ## What is pushed -/

/-- Uops that may end an instruction. -/
structure Closed (ps : List Push) : Prop where
  ne_nil : ps ≠ []
  src : ∀ p ∈ ps, jumps p.mnemonic = true → p.source = .reg ∨ p.source = .immed
  pop : ∀ p ∈ ps.dropLast, p.mnemonic ≠ .pop
  load : ∀ p ∈ ps.getLast?, p.mnemonic ≠ .load

/-- The uops of a whole instruction. -/
structure Whole (ps : List Push) : Prop extends Closed ps where
  head : ∀ p ∈ ps.head?, p.mnemonic ≠ .load

/-- The mnemonic of a uop that builds an address. -/
def Plain (p : Push) : Prop := p.mnemonic = .mov ∨ p.mnemonic = .add ∨ p.mnemonic = .imul

section Lists

variable {c : Prop} [Decidable c] {p q : Push} {ps qs : List Push}

theorem Plain.ne (h : Plain p) :
    jumps p.mnemonic = false ∧ p.mnemonic ≠ .pop ∧ p.mnemonic ≠ .load := by
  rcases h with h | h | h <;> rw [h] <;> decide

theorem closed_single (hsrc : jumps p.mnemonic = true → p.source = .reg ∨ p.source = .immed)
    (hload : p.mnemonic ≠ .load) : Closed [p] where
  ne_nil := List.cons_ne_nil _ _
  src := List.forall_mem_singleton.mpr hsrc
  pop := List.forall_mem_nil _
  load _ hq := Option.some.inj hq ▸ hload

theorem closed_pair (hp : jumps p.mnemonic = true → p.source = .reg ∨ p.source = .immed)
    (hpop : p.mnemonic ≠ .pop) (hq : Closed [q]) : Closed [p, q] where
  ne_nil := List.cons_ne_nil _ _
  src := List.forall_mem_cons.mpr ⟨hp, hq.src⟩
  pop := List.forall_mem_singleton.mpr hpop
  load := hq.load

theorem closed_ite (hps : c → Closed ps) (hqs : ¬c → Closed qs) :
    Closed (if c then ps else qs) := by
  split_ifs with h
  · exact hps h
  · exact hqs h

theorem whole_ite (hps : c → Whole ps) (hqs : ¬c → Whole qs) : Whole (if c then ps else qs) := by
  split_ifs with h
  · exact hps h
  · exact hqs h

theorem whole_single (hsrc : jumps p.mnemonic = true → p.source = .reg ∨ p.source = .immed)
    (hload : p.mnemonic ≠ .load) : Whole [p] where
  toClosed := closed_single hsrc hload
  head _ hq := Option.some.inj hq ▸ hload

/-- An address, and what is done with it. -/
theorem whole_append (hp : ∀ q ∈ p :: ps, Plain q) (hqs : Closed qs) : Whole (p :: ps ++ qs) where
  ne_nil := List.cons_ne_nil _ _
  src := List.forall_mem_append.mpr
    ⟨fun q hq hjump ↦ absurd ((hp q hq).ne.1.symm.trans hjump) Bool.false_ne_true, hqs.src⟩
  pop := by
    rw [List.dropLast_append_of_ne_nil hqs.ne_nil]
    exact List.forall_mem_append.mpr ⟨fun q hq ↦ (hp q hq).ne.2.1, hqs.pop⟩
  load := by
    rw [List.getLast?_append_of_ne_nil _ hqs.ne_nil]
    exact hqs.load
  head _ hq := Option.some.inj hq ▸ (hp p List.mem_cons_self).ne.2.2

end Lists

/-! ## The uops of an instruction -/

/-- What udis86 reports. -/
structure Reported (ud : Ud) : Prop where
  named : ud.mnemonic ≠ .load
  jump : jumps ud.mnemonic = true → ud.operand0.type ≠ .none
  pop : ud.mnemonic = .pop → ud.operand1.type = .none

variable {ud : Ud} {ps : List Push}

theorem plain_addressNoIndex (o : Operand) : ∀ p ∈ Decoder.addressNoIndex o, Plain p := by
  refine List.forall_mem_cons.mpr ⟨.inl rfl, ?_⟩
  split_ifs
  · exact List.forall_mem_singleton.mpr (.inr (.inl rfl))
  · exact List.forall_mem_nil _

theorem plain_addressBaseIndex (o : Operand) : ∀ p ∈ Decoder.addressBaseIndex o, Plain p := by
  refine List.forall_mem_cons.mpr ⟨.inl rfl, List.forall_mem_append.mpr ⟨?_, ?_⟩⟩
  · split_ifs
    · exact List.forall_mem_singleton.mpr (.inr (.inr rfl))
    · exact List.forall_mem_nil _
  · split_ifs
    · exact List.forall_mem_singleton.mpr (.inr (.inl rfl))
    · exact List.forall_mem_nil _

theorem plain_addressGeneral (o : Operand) : ∀ p ∈ Decoder.addressGeneral o, Plain p := by
  refine List.forall_mem_cons.mpr ⟨.inl rfl, List.forall_mem_append.mpr ⟨?_,
    List.forall_mem_append.mpr ⟨?_, ?_⟩⟩⟩
  · split_ifs
    · exact List.forall_mem_singleton.mpr (.inr (.inr rfl))
    · exact List.forall_mem_nil _
  · split_ifs
    · exact List.forall_mem_singleton.mpr (.inr (.inl rfl))
    · exact List.forall_mem_nil _
  · split_ifs
    · exact List.forall_mem_singleton.mpr (.inr (.inl rfl))
    · exact List.forall_mem_nil _

section Memory

variable (h : Reported ud)
include h

theorem closed_crackCompare (oj : Operand) : Closed (Decoder.crackCompare ud oj) := by
  refine closed_pair nofun Mnemonic.noConfusion ?_
  split_ifs
  · exact closed_single (fun _ ↦ .inl rfl) h.named
  · exact closed_single (fun _ ↦ .inr rfl) h.named

theorem closed_crackLoad : Closed (Decoder.crackLoad ud) :=
  closed_pair nofun Mnemonic.noConfusion (closed_single (fun _ ↦ .inl rfl) h.named)

omit h in
theorem closed_pushStore : Closed [Decoder.pushStore] :=
  closed_single (fun _ ↦ .inl rfl) Mnemonic.noConfusion

omit h in
theorem closed_crackStoreNoIndex (hpop : ud.mnemonic ≠ .pop) :
    Closed (Decoder.crackStoreNoIndex ud) :=
  closed_pair (fun _ ↦ .inl rfl) hpop closed_pushStore

omit h in
theorem closed_crackStoreIndex (hpop : ud.mnemonic ≠ .pop) (oj : Operand) :
    Closed (Decoder.crackStoreIndex ud oj) := by
  rw [Decoder.crackStoreIndex]
  split_ifs
  · exact closed_pair (fun _ ↦ .inl rfl) hpop closed_pushStore
  · exact closed_pair (fun _ ↦ .inr rfl) hpop closed_pushStore

omit h in
theorem closed_crackLea (dst : Reg) : Closed (Decoder.crackLea dst) :=
  closed_single (fun _ ↦ .inl rfl) Mnemonic.noConfusion

/-- An instruction with a memory operand. A `pop` loads. -/
theorem whole_crackMemory : Whole (Decoder.crackMemory ud) := by
  have hpop : ∀ {m : Mnemonic}, (if ud.operand1.type = .none then .load else m) ≠ .load →
      ud.mnemonic ≠ .pop := fun hne hpop ↦ hne (if_pos (h.pop hpop))
  have hstore : ∀ {m : Mnemonic}, (if ud.operand1.type = .none then .load else m) = .store →
      ud.mnemonic ≠ .pop := fun heq ↦ hpop (heq.trans_ne Mnemonic.noConfusion)
  rw [Decoder.crackMemory]
  generalize (if ud.operand0.type = .mem then ud.operand0 else ud.operand1) = oi
  generalize (if ud.operand0.type = .mem then ud.operand1 else ud.operand0) = oj
  refine whole_ite (fun _ ↦ whole_append (plain_addressNoIndex oi) ?_) fun _ ↦
    whole_ite (fun _ ↦ whole_append (plain_addressBaseIndex oi) ?_) fun _ ↦
      whole_append (plain_addressGeneral oi) ?_
  · exact closed_ite (fun _ ↦ closed_crackCompare h oj) fun _ ↦
      closed_ite (fun _ ↦ closed_crackLoad h) fun _ ↦
        closed_ite (fun heq ↦ closed_crackStoreNoIndex (hstore heq)) fun _ ↦ closed_crackLea _
  · exact closed_ite (fun _ ↦ closed_crackLea _) fun _ ↦
      closed_ite (fun _ ↦ closed_crackCompare h oj) fun _ ↦
        closed_ite (fun _ ↦ closed_crackLoad h) fun hne ↦ closed_crackStoreIndex (hpop hne) oj
  · exact closed_ite (fun _ ↦ closed_crackLea _) fun _ ↦
      closed_ite (fun _ ↦ closed_crackCompare h oj) fun _ ↦
        closed_ite (fun _ ↦ closed_crackLoad h) fun hne ↦ closed_crackStoreIndex (hpop hne) oj

/-- **What `crack_opcodes` pushes for an instruction is whole.** -/
theorem whole_crack (hcrack : crack ud = some ps) : Whole ps := by
  have hreg : ∀ {r1 r2 r3 imm}, Whole [(⟨ud.mnemonic, r1, r2, r3, imm, .reg⟩ : Push)] :=
    whole_single (fun _ ↦ .inl rfl) h.named
  have himm : ∀ {r1 r2 r3 imm}, Whole [(⟨ud.mnemonic, r1, r2, r3, imm, .immed⟩ : Push)] :=
    whole_single (fun _ ↦ .inr rfl) h.named
  have himul : ud.mnemonic = .imul → Whole (Decoder.crackImul ud) := by
    intro hop
    have hone : ∀ {r1 r2 r3 imm src}, Whole [(⟨ud.mnemonic, r1, r2, r3, imm, src⟩ : Push)] := by
      refine whole_single (fun hjump ↦ ?_) h.named
      have himul : jumps ud.mnemonic = true := hjump
      rw [hop] at himul
      cases himul
    exact whole_ite (fun _ ↦ hone) fun _ ↦ whole_ite (fun _ ↦ hone) fun _ ↦
      whole_ite (fun _ ↦ hone) fun _ ↦ whole_ite (fun _ ↦ hone) fun _ ↦ hone
  rw [crack] at hcrack
  split_ifs at hcrack with hnone hop
  all_goals cases hcrack
  · exact whole_single (fun hjump ↦ absurd hnone.1 (h.jump hjump)) h.named
  · exact himul hop
  · exact hreg
  · exact himm
  · exact hreg
  · exact hreg
  · exact himm
  · exact himm
  · exact whole_crackMemory h

end Memory

/-! ## The program -/

/-- An instruction at every address, with what was in memory when its uops were pushed. -/
structure Listing where
  ud : Word → Ud
  size : Word → ℕ
  uninit : Word → ℕ → Uninit
  reported : ∀ a, Reported (ud a)
  cracked : ∀ a, (crack (ud a)).isSome = true

namespace Listing

variable (l : Listing) (a : Word)

/-- The uops of the instruction at an address. -/
def uops : List Uop := crackAt (l.uninit a) a (l.size a) (l.ud a)

theorem exists_pushes : ∃ ps : List Push, Whole ps ∧
    l.uops a = ps.mapIdx fun i p ↦ Decoder.push2q (l.uninit a i) a (l.size a) p := by
  obtain ⟨ps, hps⟩ := Option.isSome_iff_exists.mp (l.cracked a)
  exact ⟨ps, whole_crack (l.reported a) hps, Decoder.crackAt_eq _ _ _ hps⟩

/-- Every uop is one that was pushed. -/
theorem forall_uops {P : Uop → Prop} {ps : List Push}
    (huops : l.uops a = ps.mapIdx fun i p ↦ Decoder.push2q (l.uninit a i) a (l.size a) p)
    (h : ∀ p ∈ ps, ∀ u, P (Decoder.push2q u a (l.size a) p)) : ∀ u ∈ l.uops a, P u := by
  intro u hu
  rw [huops] at hu
  obtain ⟨i, hi, rfl⟩ := List.mem_mapIdx.mp hu
  exact h _ (List.getElem_mem hi) _

/-- A `pop` is pushed last. -/
theorem pop_last (i : ℕ) (h : i < (l.uops a).length) (hpop : (l.uops a)[i].opcode = .pop) :
    i + 1 = (l.uops a).length := by
  obtain ⟨ps, hwhole, huops⟩ := l.exists_pushes a
  simp only [huops, List.length_mapIdx, List.getElem_mapIdx] at h hpop ⊢
  by_contra hne
  have hlast : i < ps.dropLast.length := by
    rw [List.length_dropLast]
    omega
  refine hwhole.pop ps[i] ?_ hpop
  rw [← List.getElem_dropLast hlast]
  exact List.getElem_mem hlast

/-- A `load` is pushed neither first nor last. -/
theorem load_inner (i : ℕ) (h : i < (l.uops a).length) (hload : (l.uops a)[i].opcode = .load) :
    0 < i ∧ i + 1 < (l.uops a).length := by
  obtain ⟨ps, hwhole, huops⟩ := l.exists_pushes a
  simp only [huops, List.length_mapIdx, List.getElem_mapIdx] at h hload ⊢
  constructor
  · by_contra hzero
    obtain rfl : i = 0 := by omega
    refine hwhole.head ps[0] ?_ hload
    rw [List.head?_eq_getElem?, List.getElem?_eq_getElem h]
    rfl
  · by_contra hend
    obtain rfl : i = ps.length - 1 := by omega
    refine hwhole.load ps[ps.length - 1] ?_ hload
    rw [List.getLast?_eq_getElem?, List.getElem?_eq_getElem h]
    rfl

/-- The program of a listing. -/
def program : Program where
  uops := l.uops
  size := l.size
  ne_nil a := by
    obtain ⟨ps, hwhole, huops⟩ := l.exists_pushes a
    rw [huops, Ne, List.mapIdx_eq_nil_iff]
    exact hwhole.ne_nil
  address a := by
    obtain ⟨ps, -, huops⟩ := l.exists_pushes a
    exact l.forall_uops a huops fun _ _ _ ↦ rfl
  opsize a := by
    obtain ⟨ps, -, huops⟩ := l.exists_pushes a
    exact l.forall_uops a huops fun _ _ _ ↦ rfl
  src a := by
    obtain ⟨ps, hwhole, huops⟩ := l.exists_pushes a
    exact l.forall_uops a huops fun p hp _ ↦ hwhole.src p hp
  pop_last := l.pop_last
  load_inner := l.load_inner

end Listing

/-! ## A run -/

/-- RAX, as an operand. -/
def raxOperand : Operand := { Operand.none with type := .reg, base := .gpr .rax }

/-- The word at RBX. -/
def rbxWord : Operand := { Operand.none with type := .mem, base := .gpr .rbx }

/-- A distance of minus five. -/
def minusFive : Operand := { Operand.none with type := .jimm, size := 8, lval := 0xfb }

/-- `mov rax, [rbx]` at `0x1000`, a jump back to it behind that, and `inc rax` everywhere else. -/
def loopUd (a : Word) : Ud :=
  if a = 0x1000 then ⟨.mov, raxOperand, rbxWord, .none⟩
  else if a = 0x1003 then ⟨.jmp, minusFive, .none, .none⟩
  else ⟨.inc, raxOperand, .none, .none⟩

theorem reported_loopUd (a : Word) : Reported (loopUd a) := by
  rw [loopUd]
  split_ifs <;> constructor <;> decide

theorem cracked_loopUd (a : Word) : (crack (loopUd a)).isSome = true := by
  rw [loopUd]
  split_ifs <;> decide

/-- The loop. -/
def loopListing : Listing where
  ud := loopUd
  size a := if a = 0x1003 then 2 else 3
  uninit _ _ := ⟨0, 0, 0⟩
  reported := reported_loopUd
  cracked := cracked_loopUd

/-- Cycles with the stages in order; the memory answers in each. -/
def loopCycles : Cycles ℕ :=
  List.replicate 20 ⟨⟨2, true, true, 0, 0, CycleInput.zero⟩, stages, .refl _⟩

/-- The loop after these cycles. -/
def loopRun : Logged loopListing.program :=
  logRun loopCycles (Logged.start (Core.boot (fun _ ↦ 0) ⟨0⟩ (fun _ ↦ 0)
    (Execute.init 0 Uop.zero)) 0x1000)

/-- Two turns of it, and the load of the third. -/
theorem logRun_path_loop : loopRun.events.length = 13 ∧
    ∃ p, Path loopListing.program 0x1000 loopRun.events p ∧ Stands loopRun p := by
  have halive : loopRun.pipe.core.aborted = false := by decide +kernel
  have hpath := logRun_path loopListing.program 0x1000 (fun _ ↦ 0) ⟨0⟩ (fun _ ↦ 0) 0 Uop.zero
    loopCycles
  exact ⟨by decide +kernel, hpath.resolve_left (Bool.eq_false_iff.mp halive)⟩

end Cse502.Pipeline
