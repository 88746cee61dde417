import Cse502.Model.ExecuteRuns

/-!
# The path of a program

What a sequential reading of a program allows `Execute` to run: the uops of an instruction one after
another, then those of the next instruction, or of the target once a transfer was taken.

A program gives the uops of the instruction at every address, also where no instruction was meant to
be, since the decoder goes on along the fall-through path before a jump is executed.
-/

namespace Cse502.Pipeline

open Execute (jumps jumpTarget takes)

/-- The uops of every instruction, with what holds of those the decoder cracks: a jump has a
register or an immediate as its source, a `pop` ends its instruction, and a `load` has the uops of
its address before it and its use behind it. -/
structure Program where
  uops : Word → List Uop
  size : Word → ℕ
  ne_nil : ∀ a, uops a ≠ []
  address : ∀ a, ∀ u ∈ uops a, u.address = a
  opsize : ∀ a, ∀ u ∈ uops a, u.opsize = size a
  src : ∀ a, ∀ u ∈ uops a, jumps u.opcode = true → u.src = .reg ∨ u.src = .immed
  pop_last : ∀ a i (h : i < (uops a).length), (uops a)[i].opcode = .pop → i + 1 = (uops a).length
  load_inner : ∀ a i (h : i < (uops a).length), (uops a)[i].opcode = .load →
    0 < i ∧ i + 1 < (uops a).length

/-- A uop of a program, by its instruction and its place in it. -/
structure Position (code : Program) where
  addr : Word
  idx : Fin (code.uops addr).length

namespace Position

variable {code : Program}

/-- The uop there. -/
def uop (p : Position code) : Uop := (code.uops p.addr).get p.idx

/-- The first uop of an instruction. -/
def first (a : Word) : Position code := ⟨a, ⟨0, List.length_pos_of_ne_nil (code.ne_nil a)⟩⟩

/-- The next uop of the instruction, or the first one of the next instruction. -/
def next (p : Position code) : Position code :=
  if h : p.idx + 1 < (code.uops p.addr).length then ⟨p.addr, ⟨p.idx + 1, h⟩⟩
  else first (p.addr + BitVec.ofNat 64 (code.size p.addr))

/-- The next uops. -/
def upcoming : Position code → ℕ → List Uop
  | _, 0 => []
  | p, n + 1 => p.uop :: p.next.upcoming n

/-- The position behind them. -/
def advance : Position code → ℕ → Position code
  | p, 0 => p
  | p, n + 1 => p.next.advance n

theorem advance_add (p : Position code) (m n : ℕ) :
    p.advance (m + n) = (p.advance m).advance n := by
  induction m generalizing p with
  | zero => rw [Nat.zero_add]; rfl
  | succ m ih => rw [Nat.succ_add]; exact ih p.next

theorem upcoming_add (p : Position code) (m n : ℕ) :
    p.upcoming (m + n) = p.upcoming m ++ (p.advance m).upcoming n := by
  induction m generalizing p with
  | zero => rw [Nat.zero_add]; rfl
  | succ m ih =>
    rw [Nat.succ_add]
    exact congrArg (p.uop :: ·) (ih p.next)

theorem uop_mem (p : Position code) : p.uop ∈ code.uops p.addr := List.get_mem _ _

@[simp] theorem uop_address (p : Position code) : p.uop.address = p.addr :=
  code.address p.addr p.uop p.uop_mem

theorem uop_nextAddr (p : Position code) :
    p.uop.nextAddr = p.addr + BitVec.ofNat 64 (code.size p.addr) := by
  rw [Uop.nextAddr, uop_address, code.opsize p.addr p.uop p.uop_mem]

private theorem next_of_lt (p : Position code) (h : p.idx + 1 < (code.uops p.addr).length) :
    p.next = ⟨p.addr, ⟨p.idx + 1, h⟩⟩ := dif_pos h

private theorem next_of_not_lt (p : Position code) (h : ¬p.idx + 1 < (code.uops p.addr).length) :
    p.next = first p.uop.nextAddr := by rw [next, dif_neg h, uop_nextAddr]

/-- The next uop is one of the same instruction, or the first one behind it. -/
theorem next_cases (p : Position code) :
    (p.next.addr = p.addr ∧ 0 < p.next.idx.val) ∨
      (p.next.idx.val = 0 ∧ p.next.addr = p.uop.nextAddr) := by
  by_cases h : p.idx + 1 < (code.uops p.addr).length
  · rw [next_of_lt p h]
    exact .inl ⟨rfl, Nat.succ_pos _⟩
  · rw [next_of_not_lt p h]
    exact .inr ⟨rfl, rfl⟩

/-- Behind a `pop` a new instruction begins. -/
theorem next_of_pop {p : Position code} (h : p.uop.opcode = .pop) :
    p.next.idx.val = 0 ∧ p.next.addr = p.uop.nextAddr := by
  have hlast := code.pop_last p.addr p.idx p.idx.isLt h
  rw [next_of_not_lt p (by omega)]
  exact ⟨rfl, rfl⟩

/-- Behind a `load` its instruction goes on. -/
theorem next_of_load {p : Position code} (h : p.uop.opcode = .load) :
    0 < p.idx.val ∧ p.next.addr = p.addr ∧ 0 < p.next.idx.val := by
  obtain ⟨hpos, hlt⟩ := code.load_inner p.addr p.idx p.idx.isLt h
  rw [next_of_lt p hlt]
  exact ⟨hpos, rfl, Nat.succ_pos _⟩

end Position

/-! ## Paths -/

/-- What `Execute` did: it ran a uop, or it redirected the fetching. -/
inductive Event
  | ran (op : Uop)
  | redirected (target : Word)

/-- What tells a uop from the others, without its operand values. -/
def ident (u : Uop) : Word × ℕ × Mnemonic × SrcType := (u.address, u.opsize, u.opcode, u.src)

theorem nextAddr_of_ident {u v : Uop} (h : ident u = ident v) : u.nextAddr = v.nextAddr := by
  rw [ident, ident, Prod.mk.injEq, Prod.mk.injEq] at h
  rw [Uop.nextAddr, Uop.nextAddr, h.1, h.2.1]

/-- The transfers that are always taken. -/
def alwaysTaken : Mnemonic → Bool
  | .jmp | .call | .ret => true
  | _ => false

/-- A uop that `do_jump` is called for is a jump. -/
theorem jumps_of_takes {op : Uop} {e : Eflags} (h : takes op e = true) :
    jumps op.opcode = true := by
  rw [takes, Bool.or_eq_true, Bool.and_eq_true, beq_iff_eq] at h
  rcases h with hcall | ⟨hjumps, -⟩
  · rw [hcall]
    rfl
  · exact hjumps

/-- `do_jump` is called for every call and every unconditional jump. -/
theorem alwaysTaken_of_not_takes {op : Uop} {e : Eflags} (h : takes op e = false)
    (hret : op.opcode ≠ .ret) : alwaysTaken op.opcode = false := by
  rw [Bool.eq_false_iff]
  intro halways
  have hcases : op.opcode = .jmp ∨ op.opcode = .call := by
    cases hop : op.opcode <;> rw [hop] at halways hret <;> first
      | exact .inl rfl | exact .inr rfl | exact absurd rfl hret | cases halways
  rcases hcases with hop | hop <;> rw [takes, hop] at h <;> cases h

/-- The last uop run does not have to be followed by a redirection. -/
def Falls (es : List Event) : Prop :=
  ∀ op, es.getLast? = some (.ran op) → alwaysTaken op.opcode = false

/-- A uop redirects to this address: a jump to its operand, a `ret` to the word it loaded. -/
def Targets (op : Uop) (target : Word) : Prop :=
  op.opcode = .ret ∨ (jumps op.opcode = true ∧ target = jumpTarget op)

/-- The runs of a program from its entry, with the position reached. -/
inductive Path (code : Program) (entry : Word) : List Event → Position code → Prop
  | start : Path code entry [] (Position.first entry)
  /-- The uop at the position reached is run. -/
  | ran {es p op} (h : Path code entry es p) (hfalls : Falls es) (hop : ident op = ident p.uop) :
      Path code entry (es ++ [.ran op]) p.next
  /-- The transfer that was run last is taken. -/
  | redirected {es p op target} (h : Path code entry (es ++ [.ran op]) p)
      (htarget : Targets op target) :
      Path code entry (es ++ [.ran op] ++ [.redirected target]) (Position.first target)

theorem falls_concat_redirected (es : List Event) (target : Word) :
    Falls (es ++ [.redirected target]) := by
  intro op h
  rw [List.getLast?_concat] at h
  cases h

theorem falls_concat_ran {es : List Event} {op : Uop} (h : alwaysTaken op.opcode = false) :
    Falls (es ++ [.ran op]) := by
  intro op' h'
  rw [List.getLast?_concat] at h'
  cases h'
  exact h

end Cse502.Pipeline
