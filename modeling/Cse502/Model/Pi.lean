import Cse502.Library.Positional
import Cse502.Model.Libc

/-!
# The program that computes the digits of pi

`arctan`, `Print` and `_main` of `prog2.c`. The arrays `pi`, `powers` and `term` have `size`
elements, each a digit in base 100. A loop that starts at `adv` leaves what is before it alone, also
in `term`.
-/

namespace Cse502.Pi

open Libc (Fault)
open Positional (divide steps add sub)

/-- `BASE`. -/
def base : ℕ := 100

/-- The globals, and the variables of `arctan`. -/
structure State where
  pi : List ℕ
  powers : List ℕ
  term : List ℕ
  adv : ℕ
  remain : ℕ
  divisor : ℕ
  sign : ℤ

/-- One turn of the loop, up to the test. -/
def turn (denom2 : ℕ) (s : State) : State :=
  let powers := s.powers.take s.adv ++ divide base denom2 s.remain (s.powers.drop s.adv)
  let term := s.term.take s.adv ++ divide base s.divisor 0 (powers.drop s.adv)
  { s with
    pi := if 0 < s.sign then (add base s.pi term).2 else (sub base s.pi term).2
    powers := powers
    term := term
    remain := 0
    divisor := s.divisor + 2
    sign := -s.sign }

/-- No number of a division overflows. -/
def fits (ts : List ℕ) : Bool := ts.all (· < 2 ^ 63)

/-- The divisions of a turn do not overflow. -/
def turnFits (denom2 : ℕ) (s : State) : Bool :=
  fits (steps base denom2 s.remain (s.powers.drop s.adv)) &&
    fits (steps base s.divisor 0 ((turn denom2 s).powers.drop s.adv))

/-- `NotZero`. -/
def notZero (s : State) : Bool := (s.powers.drop s.adv).any (· ≠ 0)

/-- The loop that moves `adv`. -/
def skip (s : State) : State :=
  { s with adv := s.adv + ((s.powers.drop s.adv).takeWhile (· = 0)).length }

/-- The loop. -/
def loop (denom2 : ℕ) : ℕ → State → Except Fault State
  | 0, _ => .error .fuel
  | fuel + 1, s =>
    if turnFits denom2 s then
      let s := turn denom2 s
      if notZero s then loop denom2 fuel (skip s) else .ok s
    else .error .overflow

/-- `arctan`: what it leaves in `pi` and in `term`. -/
def arctan (fuel multiplier denom : ℕ) (sign : ℤ) (pi term : List ℕ) :
    Except Fault (List ℕ × List ℕ) :=
  (loop (denom * denom) fuel ⟨pi, List.replicate pi.length 0, term, 0, multiplier * denom, 1,
    sign⟩).map fun s ↦ (s.pi, s.term)

/-- The calls of `_main`, for whatever `malloc` has left in `term`. -/
def machin (fuel size : ℕ) (term : List ℕ) : Except Fault (List ℕ) :=
  (arctan fuel 16 5 1 (List.replicate size 0) term).bind fun r ↦
    (arctan fuel 4 239 (-1) r.1 r.2).map Prod.fst

/-! ## What is printed -/

/-- `PrintShort`: the bytes written. -/
def printShort (num : ℕ) : List (BitVec 8) :=
  [Libc.outDig (num / 10 % 10 : ℕ), Libc.outDig (num % 10 : ℕ)]

/-- `Print`: it writes `3.` for the first element. -/
def print (num : List ℕ) : List (BitVec 8) :=
  0x33 :: 0x2e :: ((num.drop 1).flatMap printShort ++ [0x0a])

/-- `BASEDIGITS`. -/
def baseDigits : ℕ := 2

/-- The number of elements for a number of digits. -/
def elements (size : ℕ) : ℕ := (size + baseDigits - 1) / baseDigits + 1

/-- The bytes of a string. -/
def ascii (s : String) : List (BitVec 8) := s.toList.map fun c ↦ BitVec.ofNat 8 c.toNat

/-- `_main`: its result and the bytes written. `malloc` does not fail; `term` is what it has left
there, and `t1` and `t2` are what `time` returns. -/
def main (mem : Mem) (fuel : ℕ) (argc argv : Word) (term : List ℕ) (t1 t2 : ℤ) :
    Except Fault (ℕ × List (BitVec 8)) :=
  if argc ≠ 2 then
    .ok (1, ascii ("Syntax: ./prog2 <number>   - <number> indicates the number of digits to " ++
      "compute\n"))
  else
    (Libc.read mem (argv + 8)).bind fun p ↦ (Libc.atol mem fuel p).bind fun size ↦
      if size ≤ 0 then .ok (1, ascii "Invalid argument - need <number>\n")
      else (machin fuel (elements size.toNat) term).map fun pi ↦
        (0, print pi ++ ascii "Calculation time " ++ Libc.printVal (t2 - t1) ++ ascii " cycles\n")

/-- `_start` and `__libc_start_main`: `argc` is popped, and `argv` is the stack pointer then. -/
def start (mem : Mem) (fuel : ℕ) (sp : Word) (term : List ℕ) (t1 t2 : ℤ) :
    Except Fault (ℕ × List (BitVec 8)) :=
  (Libc.read mem sp).bind fun argc ↦ main mem fuel argc (sp + 8) term t1 t2

end Cse502.Pi
