import Mathlib.Logic.Function.Basic
import Mathlib.Tactic.Common

/-!
# SRAM

`sram.h` of the warm-up project, with one port. The rows are followed by a ring of `delay` entries:
every cycle writes one entry, if the port is enabled, and drives the next one.
-/

namespace Cse502.Warmup

/-- The members of `SRAM`. Of the ring only the entries below `delay` are used. -/
structure Sram (α : Type) (depthLog2 : ℕ) where
  data : BitVec depthLog2 → α
  pipeline : ℕ → α
  pipePtr : ℕ

/-- The signals bound to a port: `ena`, `we`, `addr` and `din`. -/
structure SramPort (α : Type) (depthLog2 : ℕ) where
  ena : Bool
  we : Bool
  addr : BitVec depthLog2
  din : α

namespace Sram

variable {α : Type} {depthLog2 : ℕ}

/-- `SRAM::delay`, for one port. -/
def delay (depthLog2 : ℕ) : ℕ := if 8 < depthLog2 then depthLog2 - 8 else 1

/-- An array of zeros, for a given zero. -/
def init (zero : α) : Sram α depthLog2 := ⟨fun _ ↦ zero, fun _ ↦ zero, 0⟩

/-- `SRAM::work`: the next state and what is written to `dout`. -/
def work (p : SramPort α depthLog2) (s : Sram α depthLog2) : Sram α depthLog2 × α :=
  let data := if p.ena && p.we then Function.update s.data p.addr p.din else s.data
  let pipeline := if p.ena then Function.update s.pipeline s.pipePtr (data p.addr) else s.pipeline
  let pipePtr := (s.pipePtr + 1) % delay depthLog2
  (⟨data, pipeline, pipePtr⟩, pipeline pipePtr)

variable (p : SramPort α depthLog2) (s : Sram α depthLog2)

/-- The rows after a cycle. -/
theorem work_data :
    (work p s).1.data = if p.ena && p.we then Function.update s.data p.addr p.din else s.data := rfl

/-- A ring of one entry stays at that entry. -/
theorem work_pipePtr (h : delay depthLog2 = 1) : (work p s).1.pipePtr = 0 := by
  rw [work, h]
  exact Nat.mod_one _

/-- With a ring of one entry an enabled port drives the addressed row, after the write. -/
theorem work_dout (h : delay depthLog2 = 1) (hptr : s.pipePtr = 0) (hena : p.ena = true) :
    (work p s).2 = (work p s).1.data p.addr := by
  simp only [work, h, hena, hptr, Nat.zero_add, Nat.mod_one, if_true, Function.update_self]

end Sram

end Cse502.Warmup
