import Cse502.Model.Fetch
import Mathlib.Tactic

/-!
# Fetch delivers every block once, in order

`Fetch::work` keeps its request on the port, so replies for a block go on arriving after it was
delivered, and replies requested before a redirect arrive after it. All of them are compared with
the block that is waited for.

## The invariant

`prev_tag` is `RIP`, and `RIP` is where the next block begins: the target itself before the first
block after a redirect, and the address behind the blocks delivered since then. The one exception is
the state before the first cycle, when `prev_tag` has not been set; no tag has been requested then,
so no reply can arrive.

The request on the port is the one for that block. An awaited reply while `firstRunFlag` is still
set would leave the old request there for good; a first cycle without a redirect clears the flag
before any reply can arrive.
-/

namespace Cse502.Frontend

open Fetch (block)

/-! ## The fetch stage and a memory -/

/-- What a cycle takes from outside: a redirect, and the memory's choice of a reply, one of the tags
it has seen with any data. A choice that is out of range is no reply. -/
structure FetchInput where
  redirect : Option Word
  reply : Option (ℕ × BitVec 128)

/-- The fetch stage, the tags the memory has seen, and the blocks delivered since the last redirect,
each as its address and the offset of its first byte. -/
structure FetchSys where
  fetch : Fetch
  core : Core
  requested : List (BitVec 32)
  target : Word
  pulses : List (Word × Word)

/-- The signals of one cycle. -/
def drive (i : FetchInput) (s : FetchSys) : Signals :=
  let reply := i.reply.bind fun r ↦ (s.requested[r.1]?).map fun tag ↦ (tag, r.2)
  { s.core.nxt with
    clear := i.redirect.isSome
    changeRIP := i.redirect.isSome
    newRIP := i.redirect.getD 0
    iReady := reply.isSome
    iTagout := (reply.map Prod.fst).getD 0
    iData := (reply.map Prod.snd).getD 0 }

/-- One cycle: the fetch stage runs, and the memory looks at the instruction port. -/
def fetchStep (i : FetchInput) (s : FetchSys) : FetchSys :=
  let r := Fetch.work (drive i s) s.fetch s.core
  { fetch := r.1
    core := r.2
    requested :=
      if s.core.nxt.iOp = .read then s.requested ++ [s.core.nxt.iTagin] else s.requested
    target := i.redirect.getD s.target
    pulses :=
      (if i.redirect.isSome then [] else s.pulses) ++
        (if r.2.nxt.fdOutReady then [(r.2.nxt.fdOutAddr, r.2.nxt.fdOutAlign)] else []) }

/-- A run of the fetch stage. -/
def fetchRun (is : List FetchInput) (s : FetchSys) : FetchSys :=
  is.foldl (fun s i ↦ fetchStep i s) s

/-- The fetch stage after reset. -/
def bootFetch (prevTag entry rsp : Word) (c : Core) : FetchSys :=
  ⟨Fetch.init prevTag entry rsp, { c with nxt := Signals.zero }, [], entry, []⟩

/-! ## Blocks -/

/-- The `k`-th block to deliver for a target, with the offset of its first byte. -/
def expectedBlock (target : Word) : ℕ → Word × Word
  | 0 => (block target, BitVec.ofNat 64 (target.toNat % 16))
  | k + 1 => (block target + BitVec.ofNat 64 (16 * (k + 1)), 0)

/-- Where `RIP` stands before the `k`-th block is delivered. -/
def nextAddr (target : Word) : ℕ → Word
  | 0 => target
  | k + 1 => block target + BitVec.ofNat 64 (16 * (k + 1))

theorem toNat_block (a : Word) : (block a).toNat = a.toNat - a.toNat % 16 := by
  have hand : (a &&& 15).toNat = a.toNat % 16 := by
    rw [BitVec.toNat_and]
    exact Nat.and_two_pow_sub_one_eq_mod a.toNat 4
  have hdisjoint : (a &&& ~~~15) &&& (a &&& 15) = 0#64 := by
    rw [BitVec.and_comm a (~~~15), BitVec.and_assoc, ← BitVec.and_assoc a a, BitVec.and_self,
      BitVec.and_comm a 15, ← BitVec.and_assoc]
    simp
  have hadd : (a &&& ~~~15) + (a &&& 15) = a := by
    rw [BitVec.add_eq_or_of_and_eq_zero _ _ hdisjoint]
    ext i hi
    simp only [BitVec.getElem_or, BitVec.getElem_and, BitVec.getElem_not]
    cases a[i] <;> simp
  have htoNat := congrArg BitVec.toNat hadd
  rw [BitVec.toNat_add, hand] at htoNat
  have hle : (a &&& ~~~15).toNat ≤ a.toNat := by
    rw [BitVec.toNat_and]
    exact Nat.and_le_left
  change (a &&& ~~~15).toNat = _
  have hlt := a.isLt
  omega

/-- The offset of an address in its block. -/
theorem sub_block (a : Word) : a - block a = BitVec.ofNat 64 (a.toNat % 16) := by
  apply BitVec.eq_of_toNat_eq
  rw [BitVec.toNat_sub, toNat_block, BitVec.toNat_ofNat]
  have hlt := a.isLt
  omega

/-- An address that is a multiple of 16 is its own block. -/
theorem block_eq_self {a : Word} (h : a.toNat % 16 = 0) : block a = a := by
  apply BitVec.eq_of_toNat_eq
  rw [toNat_block, h, Nat.sub_zero]

theorem block_block_add (a : Word) : block (block a + 16) = block a + 16 := by
  refine block_eq_self ?_
  rw [BitVec.toNat_add, toNat_block]
  change (a.toNat - a.toNat % 16 + 16) % 2 ^ 64 % 16 = 0
  rw [Nat.mod_mod_of_dvd _ (by decide)]
  omega

private theorem nextAddr_succ_mod (target : Word) (k : ℕ) :
    (nextAddr target (k + 1)).toNat % 16 = 0 := by
  rw [nextAddr, BitVec.toNat_add, toNat_block, BitVec.toNat_ofNat]
  omega

/-- A block is delivered under its address, with the offset of `RIP` in it. -/
theorem expectedBlock_eq (target : Word) (k : ℕ) :
    expectedBlock target k =
      (block (nextAddr target k), nextAddr target k - block (nextAddr target k)) := by
  cases k with
  | zero => rw [nextAddr, sub_block, expectedBlock]
  | succ k =>
    rw [block_eq_self (nextAddr_succ_mod target k), BitVec.sub_self]
    rfl

theorem nextAddr_succ (target : Word) (k : ℕ) :
    nextAddr target (k + 1) = block (nextAddr target k) + 16 := by
  cases k with
  | zero => rfl
  | succ k =>
    rw [block_eq_self (nextAddr_succ_mod target k), nextAddr, nextAddr, BitVec.add_assoc]
    congr 1
    apply BitVec.eq_of_toNat_eq
    rw [BitVec.toNat_add, BitVec.toNat_ofNat, BitVec.toNat_ofNat]
    change _ = (_ + 16) % _
    omega

/-! ## One cycle -/

section Port

variable {cur : Signals} {f : Fetch} (tempRIP : Word) (c : Core)

/-- The reply is one for the block that is waited for. -/
def Awaited (cur : Signals) (f : Fetch) : Prop :=
  cur.iReady = true ∧ Fetch.replyAddr cur = block f.prevTag

instance : Decidable (Awaited cur f) := inferInstanceAs (Decidable (_ ∧ _))

/-- An awaited reply is passed on, and the next block is requested. -/
theorem port_awaited (h : Awaited cur f) :
    let r := Fetch.port cur tempRIP f c
    r.1.rip = tempRIP + 16 ∧ r.1.prevTag = tempRIP + 16 ∧ r.2.nxt.reset = c.nxt.reset ∧
      r.2.nxt.fdOutReady = true ∧ r.2.nxt.fdOutAddr = Fetch.replyAddr cur ∧
      r.2.nxt.fdOutAlign = f.prevTag - Fetch.replyAddr cur := by
  have hif : (cur.iReady = true ∧ Fetch.replyAddr cur = block f.prevTag) := h
  rw [Fetch.port]
  simp only [if_pos hif]
  split_ifs <;> exact ⟨rfl, rfl, rfl, rfl, rfl, rfl⟩

/-- Any other reply is ignored. -/
theorem port_ignored (h : ¬Awaited cur f) :
    let r := Fetch.port cur tempRIP f c
    r.1.rip = f.rip ∧ r.1.prevTag = (if f.firstRunFlag then f.rip else f.prevTag) ∧
      r.2.nxt.reset = c.nxt.reset ∧ r.2.nxt.fdOutReady = false := by
  have hif : ¬(cur.iReady = true ∧ Fetch.replyAddr cur = block f.prevTag) := h
  rw [Fetch.port]
  simp only [if_neg hif]
  split_ifs <;> exact ⟨rfl, rfl, rfl, rfl⟩

/-- The instruction port holds the request for the block at `RIP`. -/
def Asks (f : Fetch) (c : Core) : Prop :=
  c.nxt.iOp = .read ∧ c.nxt.iAddr = block f.rip ∧ c.nxt.iTagin = (block f.rip).setWidth 32

/-- What is asked for after the loop over the port: the block at `RIP`, or what was asked for
before. -/
theorem port_asks (h : f.firstRunFlag = true → ¬Awaited cur f) :
    let r := Fetch.port cur (block f.rip) f c
    r.1.firstRunFlag = false ∧ (Asks r.1 r.2 ∨ f.firstRunFlag = false ∧ r.1.rip = f.rip ∧
      r.2.nxt.iOp = c.nxt.iOp ∧ r.2.nxt.iAddr = c.nxt.iAddr ∧ r.2.nxt.iTagin = c.nxt.iTagin) := by
  by_cases hawaited : cur.iReady = true ∧ Fetch.replyAddr cur = block f.prevTag
  · have hflag : f.firstRunFlag = false := by
      by_contra hne
      exact h (eq_true_of_ne_false hne) hawaited
    have hblock := block_block_add f.rip
    simp only [Fetch.port, if_pos hawaited, Fetch.accept, hflag, Bool.false_eq_true, if_false]
    refine ⟨trivial, Or.inl ⟨rfl, hblock.symm, ?_⟩⟩
    rw [hblock]
    rfl
  · cases hflag : f.firstRunFlag with
    | true =>
      simp only [Fetch.port, if_neg hawaited, hflag, if_true]
      exact ⟨trivial, Or.inl ⟨rfl, rfl, rfl⟩⟩
    | false =>
      simp only [Fetch.port, if_neg hawaited, hflag, Bool.false_eq_true, if_false]
      exact ⟨trivial, Or.inr ⟨trivial, trivial, trivial, trivial, trivial⟩⟩

end Port

/-- What holds between two cycles. -/
structure FetchInv (s : FetchSys) : Prop where
  reset : s.core.nxt.reset = false
  rip : s.fetch.rip = nextAddr s.target s.pulses.length
  prevTag : s.fetch.prevTag = s.fetch.rip ∨
    (s.requested = [] ∧ s.core.nxt.iOp = .none ∧ s.fetch.firstRunFlag = true)
  pulses : s.pulses = (List.range s.pulses.length).map (expectedBlock s.target)

variable {s : FetchSys} {i : FetchInput}

/-- A reply is one to an earlier request. -/
private theorem requested_ne_nil (h : (drive i s).iReady = true) : s.requested ≠ [] := by
  intro hnil
  have hnone : (i.reply.bind fun r ↦ (s.requested[r.1]?).map fun tag ↦ (tag, r.2)) = none := by
    rw [hnil]
    cases i.reply <;> rfl
  have hready : (drive i s).iReady =
      (i.reply.bind fun r ↦ (s.requested[r.1]?).map fun tag ↦ (tag, r.2)).isSome := rfl
  rw [hready, hnone] at h
  cases h

/-- An awaited reply carries the tag of the next block. -/
private theorem prevTag_of_ready (hs : FetchInv s) (h : (drive i s).iReady = true) :
    s.fetch.prevTag = nextAddr s.target s.pulses.length := by
  rcases hs.prevTag with heq | ⟨hnil, -⟩
  · rw [heq, hs.rip]
  · exact absurd hnil (requested_ne_nil h)

/-- Without a redirect the work of a cycle is that of the port. -/
private theorem work_eq_port (hs : FetchInv s) (hi : i.redirect = none) :
    Fetch.work (drive i s) s.fetch s.core =
      Fetch.port (drive i s) (block s.fetch.rip) s.fetch s.core := by
  have hreset : (drive i s).reset = false := hs.reset
  have hclear : (drive i s).clear = false := by
    change i.redirect.isSome = false
    rw [hi]
    rfl
  have hchange : (drive i s).changeRIP = false := hclear
  simp [Fetch.work, hreset, hclear, hchange]

/-- A cycle with an awaited reply delivers the next block. -/
private theorem fetchStep_awaited (hs : FetchInv s) (hi : i.redirect = none)
    (h : Awaited (drive i s) s.fetch) :
    (fetchStep i s).pulses = s.pulses ++ [expectedBlock s.target s.pulses.length] ∧
      FetchInv (fetchStep i s) := by
  have hwork := work_eq_port hs hi
  obtain ⟨hrip, htag, hreset, hready, haddr, halign⟩ :=
    port_awaited (block s.fetch.rip) s.core h
  rw [← hwork] at hrip htag hreset hready haddr halign
  have hprev := prevTag_of_ready hs h.1
  have hpulses : (fetchStep i s).pulses =
      s.pulses ++ [expectedBlock s.target s.pulses.length] := by
    rw [fetchStep]
    simp only [hready, haddr, halign, hi, h.2, hprev, expectedBlock_eq, Option.isSome_none,
      Bool.false_eq_true, if_true, if_false]
  have htarget : (fetchStep i s).target = s.target := by
    rw [fetchStep, hi]
    rfl
  have hnext : (fetchStep i s).fetch.rip =
      nextAddr (fetchStep i s).target (fetchStep i s).pulses.length := by
    rw [htarget, hpulses, List.length_append, List.length_singleton, nextAddr_succ, ← hs.rip]
    exact hrip
  refine ⟨hpulses, hreset.trans hs.reset, hnext, .inl (htag.trans hrip.symm), ?_⟩
  rw [htarget, hpulses, List.length_append, List.length_singleton, List.range_succ, List.map_append,
    ← hs.pulses]
  rfl

/-- A cycle without an awaited reply delivers nothing. -/
private theorem fetchStep_ignored (hs : FetchInv s) (hi : i.redirect = none)
    (h : ¬Awaited (drive i s) s.fetch) :
    (fetchStep i s).pulses = s.pulses ∧ FetchInv (fetchStep i s) := by
  have hwork := work_eq_port hs hi
  obtain ⟨hrip, htag, hreset, hready⟩ :=
    port_ignored (block s.fetch.rip) s.core h
  rw [← hwork] at hrip htag hreset hready
  have hpulses : (fetchStep i s).pulses = s.pulses := by
    rw [fetchStep]
    simp only [hready, hi, Option.isSome_none, Bool.false_eq_true, if_false, List.append_nil]
  have htarget : (fetchStep i s).target = s.target := by
    rw [fetchStep, hi]
    rfl
  have hprevTag : (fetchStep i s).fetch.prevTag = (fetchStep i s).fetch.rip := by
    change (Fetch.work (drive i s) s.fetch s.core).1.prevTag =
      (Fetch.work (drive i s) s.fetch s.core).1.rip
    rw [htag, hrip]
    split_ifs with hfirst
    · rfl
    · rcases hs.prevTag with heq | ⟨-, -, hflag⟩
      · exact heq
      · exact absurd hflag hfirst
  refine ⟨hpulses, hreset.trans hs.reset, ?_, .inl hprevTag, ?_⟩
  · rw [htarget, hpulses, ← hs.rip]
    exact hrip
  · rw [htarget, hpulses]
    exact hs.pulses

/-- A redirect goes to its own branch. -/
private theorem work_eq_redirect (hs : FetchInv s) {T : Word} (hi : i.redirect = some T) :
    Fetch.work (drive i s) s.fetch s.core =
      Fetch.redirect T { s.fetch with prevTag := 0 } (Fetch.clearSignals s.core) := by
  have hreset : (drive i s).reset = false := hs.reset
  have hclear : (drive i s).clear = true := by
    change i.redirect.isSome = true
    rw [hi]
    rfl
  have hchange : (drive i s).changeRIP = true := hclear
  have hnewRIP : (drive i s).newRIP = T := by
    change i.redirect.getD 0 = T
    rw [hi]
    rfl
  simp [Fetch.work, hreset, hclear, hchange, hnewRIP]

/-- A redirect forgets the blocks delivered before it. -/
private theorem fetchStep_redirect (hs : FetchInv s) {T : Word} (hi : i.redirect = some T) :
    FetchInv (fetchStep i s) := by
  have hwork := work_eq_redirect hs hi
  have hpulses : (fetchStep i s).pulses = [] := by
    rw [fetchStep]
    simp only [hwork, hi, Option.isSome_some, if_true, List.nil_append]
    rfl
  have htarget : (fetchStep i s).target = T := by
    rw [fetchStep, hi]
    rfl
  have hfetch : (fetchStep i s).fetch = { s.fetch with rip := T, prevTag := T } := by
    change (Fetch.work (drive i s) s.fetch s.core).1 = _
    rw [hwork]
    rfl
  refine ⟨?_, ?_, .inl (by rw [hfetch]), ?_⟩
  · change (Fetch.work (drive i s) s.fetch s.core).2.nxt.reset = false
    rw [hwork]
    exact hs.reset
  · rw [hfetch, htarget, hpulses]
    rfl
  · rw [hpulses]
    rfl

/-- Every cycle keeps the invariant. -/
theorem fetchInv_step (i : FetchInput) (hs : FetchInv s) : FetchInv (fetchStep i s) := by
  cases hi : i.redirect with
  | some T => exact fetchStep_redirect hs hi
  | none =>
    by_cases h : Awaited (drive i s) s.fetch
    · exact (fetchStep_awaited hs hi h).2
    · exact (fetchStep_ignored hs hi h).2

/-- The invariant holds throughout every run. -/
theorem fetchInv_run (prevTag entry rsp : Word) (c : Core) (is : List FetchInput) :
    FetchInv (fetchRun is (bootFetch prevTag entry rsp c)) := by
  induction is using List.reverseRecOn with
  | nil => exact ⟨rfl, rfl, .inr ⟨rfl, rfl, rfl⟩, rfl⟩
  | append_singleton is i ih =>
    rw [fetchRun, List.foldl_append]
    exact fetchInv_step i ih

/-! ## The request -/

/-- The first cycle is over, and the port holds the request for the next block. -/
private structure Asking (s : FetchSys) : Prop where
  firstRunFlag : s.fetch.firstRunFlag = false
  asks : Asks s.fetch s.core

/-- A cycle without a redirect leaves the port asking, the first one included. -/
private theorem asking_port (hs : FetchInv s) (hi : i.redirect = none)
    (hfirst : s.fetch.firstRunFlag = true → ¬Awaited (drive i s) s.fetch)
    (h : s.fetch.firstRunFlag = false → Asks s.fetch s.core) : Asking (fetchStep i s) := by
  obtain ⟨hflag, hasks⟩ := port_asks s.core hfirst
  rw [← work_eq_port hs hi] at hflag hasks
  refine ⟨hflag, hasks.elim id fun ⟨hoff, hrip, hop, haddr, htag⟩ ↦ ?_⟩
  change Asks (Fetch.work (drive i s) s.fetch s.core).1 (Fetch.work (drive i s) s.fetch s.core).2
  rw [Asks, hop, haddr, htag, hrip]
  exact h hoff

/-- A redirect asks for the block of its target. -/
private theorem asking_redirect (hs : FetchInv s) {T : Word} (hi : i.redirect = some T)
    (h : s.fetch.firstRunFlag = false) : Asking (fetchStep i s) := by
  have hwork := work_eq_redirect hs hi
  constructor
  · change (Fetch.work (drive i s) s.fetch s.core).1.firstRunFlag = false
    rw [hwork]
    exact h
  · change Asks (Fetch.work (drive i s) s.fetch s.core).1 (Fetch.work (drive i s) s.fetch s.core).2
    rw [hwork]
    exact ⟨rfl, rfl, rfl⟩

/-- Every further cycle leaves the port asking. -/
private theorem asking_step (i : FetchInput) (hs : FetchInv s) (h : Asking s) :
    Asking (fetchStep i s) := by
  cases hi : i.redirect with
  | some T => exact asking_redirect hs hi h.firstRunFlag
  | none =>
    refine asking_port hs hi (fun hon ↦ ?_) fun _ ↦ h.asks
    rw [h.firstRunFlag] at hon
    contradiction

/-- The port goes on asking. -/
private theorem asking_run (is : List FetchInput) (hs : FetchInv s) (h : Asking s) :
    Asking (fetchRun is s) := by
  induction is generalizing s with
  | nil => exact h
  | cons i is ih =>
    rw [fetchRun, List.foldl_cons]
    exact ih (fetchInv_step i hs) (asking_step i hs h)

/-- The tag of a request is the address, up to the highest one. -/
theorem signExtend_tag {a : Word} (h : a.toNat < 2 ^ 31) : (a.setWidth 32).signExtend 64 = a := by
  apply BitVec.eq_of_toInt_eq
  rw [BitVec.toInt_signExtend_of_le (by decide), BitVec.toInt_eq_toNat_of_lt,
    BitVec.toInt_eq_toNat_of_lt, BitVec.toNat_setWidth, Nat.mod_eq_of_lt] <;>
  · try rw [BitVec.toNat_setWidth]
    omega

/-- **Fetch delivers every block once, in order.** Since the last redirect, or since the entry, the
blocks delivered are the first ones of the target, and a further cycle without a redirect delivers
the next one exactly if the memory replies with its tag. Behind a first cycle without a redirect the
port asks for that block all the time, so that the memory has its tag from the next cycle on; below
`2 ^ 31` a reply to the tag is one for the block. -/
theorem fetchRun_delivers (prevTag entry rsp : Word) (c : Core) (is : List FetchInput) :
    let s := fetchRun is (bootFetch prevTag entry rsp c)
    let next := expectedBlock s.target s.pulses.length
    s.pulses = (List.range s.pulses.length).map (expectedBlock s.target) ∧
      (∀ i : FetchInput, i.redirect = none →
        (fetchStep i s).pulses =
          if (drive i s).iReady = true ∧ Fetch.replyAddr (drive i s) = next.1 then
            s.pulses ++ [next]
          else s.pulses) ∧
      ∀ first rest, is = first :: rest → first.redirect = none →
        s.core.nxt.iOp = .read ∧ s.core.nxt.iAddr = next.1 ∧
          s.core.nxt.iTagin = next.1.setWidth 32 ∧
          (∀ i, next.1.setWidth 32 ∈ (fetchStep i s).requested) ∧
          (next.1.toNat < 2 ^ 31 → (next.1.setWidth 32).signExtend 64 = next.1) := by
  intro s next
  have hs : FetchInv s := fetchInv_run prevTag entry rsp c is
  have hnext : next.1 = block s.fetch.rip := by
    rw [hs.rip]
    exact congrArg Prod.fst (expectedBlock_eq s.target s.pulses.length)
  refine ⟨hs.pulses, fun i hi ↦ ?_, fun first rest his hfirst ↦ ?_⟩
  · have hawaited : Awaited (drive i s) s.fetch ↔
        (drive i s).iReady = true ∧ Fetch.replyAddr (drive i s) = next.1 := by
      rw [Awaited, hnext, hs.rip]
      refine and_congr_right fun hready ↦ ?_
      rw [prevTag_of_ready hs hready]
    by_cases h : Awaited (drive i s) s.fetch
    · rw [if_pos (hawaited.mp h)]
      exact (fetchStep_awaited hs hi h).1
    · rw [if_neg (mt hawaited.mpr h)]
      exact (fetchStep_ignored hs hi h).1
  · -- no reply can arrive in the first cycle
    have hboot : FetchInv (bootFetch prevTag entry rsp c) :=
      fetchInv_run prevTag entry rsp c []
    have hsilent : ¬Awaited (drive first (bootFetch prevTag entry rsp c))
        (bootFetch prevTag entry rsp c).fetch := fun h ↦ requested_ne_nil h.1 rfl
    have hasking := asking_port hboot hfirst (fun _ ↦ hsilent) fun h ↦ by cases h
    obtain ⟨hop, haddr, htag⟩ : Asks s.fetch s.core := by
      have hrun := asking_run rest (fetchInv_step first hboot) hasking
      change Asks (fetchRun is (bootFetch prevTag entry rsp c)).fetch
        (fetchRun is (bootFetch prevTag entry rsp c)).core
      rw [his, fetchRun, List.foldl_cons]
      exact hrun.asks
    rw [← hnext] at haddr htag
    refine ⟨hop, haddr, htag, fun i ↦ ?_, signExtend_tag⟩
    change _ ∈ if s.core.nxt.iOp = .read then s.requested ++ [s.core.nxt.iTagin] else s.requested
    rw [if_pos hop, htag]
    exact List.mem_append_right _ List.mem_cons_self

/-- The first block of the entry, and a redirect to an address inside a block, behind which the
memory still answers the request before it. -/
def fetchCycles : List FetchInput :=
  [⟨none, none⟩, ⟨none, none⟩, ⟨none, some (0, 0)⟩, ⟨some 0x40081c, none⟩, ⟨none, some (2, 0)⟩,
    ⟨none, some (3, 0)⟩, ⟨none, none⟩]

/-- The fetch stage after these cycles. -/
def redirectedRun : FetchSys :=
  fetchRun fetchCycles (bootFetch 0 0x400000 0
    (Core.boot (fun _ ↦ 0) ⟨0⟩ (fun _ ↦ 0) (Execute.init 0 Uop.zero)))

/-- The block of the new address is delivered and the one behind it is asked for. The reply to this
request delivers it. -/
theorem fetchRun_delivers_redirected : redirectedRun.pulses = [(0x400810, 0xc)] ∧
    redirectedRun.core.nxt.iOp = .read ∧ redirectedRun.core.nxt.iAddr = 0x400820 ∧
    (fetchStep ⟨none, some (5, 0)⟩ redirectedRun).pulses =
      [(0x400810, 0xc), (0x400820, 0)] := by
  have hpulses : redirectedRun.pulses = [(0x400810, 0xc)] := by decide +kernel
  have htarget : redirectedRun.target = 0x40081c := by decide +kernel
  have hrun : fetchRun fetchCycles (bootFetch 0 0x400000 0
    (Core.boot (fun _ ↦ 0) ⟨0⟩ (fun _ ↦ 0) (Execute.init 0 Uop.zero))) = redirectedRun := rfl
  have h := fetchRun_delivers 0 0x400000 0
    (Core.boot (fun _ ↦ 0) ⟨0⟩ (fun _ ↦ 0) (Execute.init 0 Uop.zero)) fetchCycles
  simp only [hrun, htarget, hpulses] at h
  obtain ⟨-, hreply, hport⟩ := h
  obtain ⟨hop, haddr, -⟩ := hport _ _ rfl rfl
  refine ⟨hpulses, hop, haddr, ?_⟩
  rw [hreply _ rfl, if_pos (by decide +kernel)]
  rfl

end Cse502.Frontend
