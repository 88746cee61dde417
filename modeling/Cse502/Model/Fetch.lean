import Cse502.Model.Common

/-!
# Fetch

`fetch.cc`, for the one instruction port of `const.h`: `Fetch::work` keeps a request for the block
at `RIP` on the instruction port, compares the tags of the replies with the block it waits for, and
hands that block to the decoder.
-/

namespace Cse502

/-- The data members of `Fetch`. -/
structure Fetch where
  prevTag : Word
  firstRunFlag : Bool
  rip : Word
  rsp : Word
  deriving DecidableEq, Repr

/-- What the constructor of `Fetch` and the reset of the core set. `prev_tag` is not set. -/
def Fetch.init (prevTag entry rsp : Word) : Fetch := ⟨prevTag, true, entry, rsp⟩

namespace Fetch

/-- `RIP & ~15`, the 16-byte block an address lies in. -/
def block (a : Word) : Word := a &&& ~~~15

/-- `i_data.range(127 - pos * 8, 0)`, assigned to a 128-bit signal. -/
def range (data : BitVec 128) (pos : ℕ) : BitVec 128 :=
  (data.extractLsb' 0 (128 - 8 * pos)).setWidth 128

/-- A request for the block at this address. -/
def request (addr : Word) (c : Core) : Core :=
  { c with nxt.iOp := .read, nxt.iTagin := addr.setWidth 32, nxt.iAddr := addr }

/-- What `clear` resets. -/
def clearSignals (c : Core) : Core :=
  { c with
    nxt.iOp := .none
    nxt.iTagin := 0
    nxt.iAddr := 0
    nxt.fdOutData := 0
    nxt.fdOutAddr := 0
    nxt.fdOutReady := false }

/-- The branch for `change_RIP`. -/
def redirect (newRIP : Word) (f : Fetch) (c : Core) : Fetch × Core :=
  ({ f with rip := newRIP, prevTag := newRIP },
    { request (block newRIP) c with ripJump := true })

/-- The tag of a reply, as an address. -/
def replyAddr (cur : Signals) : Word := cur.iTagout.signExtend 64

/-- A reply for the block that is waited for. -/
def accept (cur : Signals) (tempRIP : Word) (f : Fetch) (c : Core) : Fetch × Core :=
  let tagout := replyAddr cur
  let c := { c with
    nxt.fdOutData :=
      if f.prevTag ≠ tagout then range cur.iData (f.prevTag - tagout).toNat else cur.iData
    nxt.fdOutAddr := tagout
    nxt.fdOutReady := true
    nxt.fdOutAlign := f.prevTag - tagout }
  ({ f with rip := tempRIP + 16, prevTag := tempRIP + 16 }, request (tempRIP + 16) c)

/-- The loop over the port: a reply, and the first request. -/
def port (cur : Signals) (tempRIP : Word) (f : Fetch) (c : Core) : Fetch × Core :=
  let c := { c with nxt.fdOutReady := false }
  let r :=
    if cur.iReady ∧ replyAddr cur = block f.prevTag then accept cur tempRIP f c else (f, c)
  if r.1.firstRunFlag then
    ({ r.1 with prevTag := r.1.rip, firstRunFlag := false },
      { request tempRIP r.2 with regfile := r.2.regfile.set .rsp f.rsp })
  else r

/-- `Fetch::work`. -/
def work (cur : Signals) (f : Fetch) (c : Core) : Fetch × Core :=
  if cur.reset then (f, c)
  else
    let f := if cur.clear then { f with prevTag := 0 } else f
    let c := if cur.clear then clearSignals c else c
    if cur.changeRIP then redirect cur.newRIP f c
    else port cur (block f.rip) f c

end Fetch

end Cse502
