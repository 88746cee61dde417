import Cse502.Model.Memory

/-!
# Strings and numbers of the guest's library

`llstrlen`, `LLreadchar` and `atol` of `libc.c`, on the guest memory as the loads of the processor
meet it. `PrintVal` is of `prog2.c`.
-/

namespace Cse502.Libc

/-- Why there is no result: an assert of `Memory` has failed, a signed operation has overflowed,
which is undefined, or a loop has not ended when the fuel is used up. -/
inductive Fault
  | assert | overflow | fuel
  deriving DecidableEq, Repr

@[simp] theorem ok_bind {α β : Type} (a : α) (f : α → Except Fault β) :
    (Except.ok a).bind f = f a := rfl

@[simp] theorem error_bind {α β : Type} (e : Fault) (f : α → Except Fault β) :
    (Except.error e).bind f = .error e := rfl

@[simp] theorem ok_map {α β : Type} (a : α) (f : α → β) :
    (Except.ok a : Except Fault α).map f = .ok (f a) := rfl

/-- A load: the asserts of `Memory::work` on the address, and `mem_d_read`. -/
def read (mem : Mem) (p : Word) : Except Fault Word :=
  if Memory.inRange p then
    match Memory.memDRead mem p with
    | some w => .ok w
    | none => .error .assert
  else .error .assert

/-! ## `llstrlen` -/

/-- The tests on one word, from a case label on. -/
def firstZero (w : Word) (start : ℕ) : Option ℕ :=
  (List.range' start (8 - start)).find? fun i ↦ w &&& (0xff : Word) <<< (8 * i) = 0

/-- The loop, which the `switch` enters at the label of the first byte. -/
def strlenLoop (mem : Mem) : ℕ → Word → Word → ℕ → Except Fault Word
  | 0, _, _, _ => .error .fuel
  | fuel + 1, p, l, start => (read mem p).bind fun w ↦
    match firstZero w start with
    | some i => .ok (l + BitVec.ofNat 64 i)
    | none => strlenLoop mem fuel (p + 8) (l + 8) 0

/-- `llstrlen`. -/
def llstrlen (mem : Mem) (fuel : ℕ) (s : Word) : Except Fault Word :=
  strlenLoop mem fuel (s &&& ~~~7) (-(s % 8)) (s % 8).toNat

/-! ## `atol` -/

/-- `isspace`. -/
def isspace (c : Word) : Bool := c = 0x20 || (c - 9).ult 5

/-- `isdigit`. -/
def isdigit (c : Word) : Bool := (c - 0x30).ult 10

/-- `LLreadchar`. -/
def llreadchar (mem : Mem) (c : Word) : Except Fault Word :=
  (read mem (c &&& ~~~7)).map fun r : Word ↦ r >>> (8 * (c &&& 7).toNat) &&& 0xff

/-- A result of signed arithmetic. -/
def long (z : ℤ) : Except Fault ℤ :=
  if -2 ^ 63 ≤ z ∧ z < 2 ^ 63 then .ok z else .error .overflow

/-- The loop over the spaces. -/
def skipSpaces (mem : Mem) : ℕ → Word → Except Fault Word
  | 0, _ => .error .fuel
  | fuel + 1, s => (llreadchar mem s).bind fun c ↦
    if isspace c then skipSpaces mem fuel (s + 1) else .ok s

/-- The loop over the digits: `n` is negative. -/
def readDigits (mem : Mem) : ℕ → Word → ℤ → Except Fault ℤ
  | 0, _, _ => .error .fuel
  | fuel + 1, s, n => (llreadchar mem s).bind fun c ↦
    if isdigit c then
      (long (10 * n)).bind fun t ↦ (long (t - (c.toInt - 0x30))).bind fun n ↦
        readDigits mem fuel (s + 1) n
    else .ok n

/-- `atol`. -/
def atol (mem : Mem) (fuel : ℕ) (s : Word) : Except Fault ℤ :=
  (skipSpaces mem fuel s).bind fun s ↦ (llreadchar mem s).bind fun c ↦
    (readDigits mem fuel (if c = 0x2d ∨ c = 0x2b then s + 1 else s) 0).bind fun n ↦
      if c = 0x2d then .ok n else long (-n)

/-! ## `PrintVal` -/

/-- `OutDig`, whose `putchar` writes the low byte. -/
def outDig (dig : ℤ) : BitVec 8 := BitVec.ofInt 8 (dig + 0x30)

/-- `PrintVal`: the bytes written. -/
def printVal (val : ℤ) : List (BitVec 8) :=
  (if 9 < val then printVal (val.tdiv 10) else []) ++ [outDig (val.tmod 10)]
termination_by val.toNat
decreasing_by
  rw [Int.tdiv_eq_ediv_of_nonneg (by omega)]
  omega

end Cse502.Libc
