import Cse502.Library.WordBytes
import Cse502.Memory.Loads

/-!
# The instruction and the data view of memory

`mem_i_read`, `mem_d_read` and `mem_d_write` go through the bytes one by one, each with an index
arithmetic of its own. The loops compute the words of the model, so that data is read as it was
written, and an instruction word is the two data words at its address, byte for byte.
-/

namespace Cse502.Memory

open ByteMemory (Aligned load store)
open WordBytes (byte setByte bytesUp bytesDown)

/-! ## The loops -/

/-- `sc_uint<8>(int(c))` of a `char`, which is signed. -/
def ofChar (c : BitVec 8) : BitVec 8 := (c.signExtend 32).setWidth 8

/-- The loop of `mem_i_read`: the first byte is the highest. -/
def iBytes (mem : Mem) (addr : Word) : BitVec 128 :=
  (List.range 16).foldl
    (fun v bytes ↦ setByte v (16 - bytes - 1) (ofChar (mem (addr + BitVec.ofNat 64 bytes)))) 0

/-- The loop of `mem_d_read`: the last byte is the highest. -/
def dBytes (mem : Mem) (addr : Word) : Word :=
  (List.range 8).foldl
    (fun v bytes ↦
      setByte v (8 - bytes - 1) (ofChar (mem (addr + 8 - BitVec.ofNat 64 bytes - 1)))) 0

/-- The loop of `mem_d_write`. -/
def writeBytes (mem : Mem) (addr data : Word) : Mem :=
  (List.range 8).foldl
    (fun mem bytes ↦ Function.update mem (addr + BitVec.ofNat 64 bytes) (byte data bytes)) mem

/-- `mem_i_read`, with its loop. -/
def iRead (mem : Mem) (addr : Word) : Option (BitVec 128) :=
  if addr.toNat % (128 / 8) = 0 then some (iBytes mem addr) else none

/-- `mem_d_read`, with its loop. -/
def dRead (mem : Mem) (addr : Word) : Option Word :=
  if addr.toNat % (64 / 8) = 0 then some (dBytes mem addr) else none

/-- `mem_d_write`, with its loop. -/
def dWrite (mem : Mem) (addr data : Word) : Option Mem :=
  if addr.toNat % (64 / 8) = 0 then some (writeBytes mem addr data) else none

/-- Calls of `mem_d_write`, one after the other. -/
def dWrites (mem : Mem) (calls : List (Word × Word)) : Option Mem :=
  calls.foldlM (fun mem w ↦ dWrite mem w.1 w.2) mem

/-! ## The bytes of the words that are read -/

theorem ofChar_eq (c : BitVec 8) : ofChar c = c := by
  apply BitVec.eq_of_getLsbD_eq
  intro i hi
  have hi' : i < 32 := by omega
  rw [ofChar, BitVec.getLsbD_setWidth, BitVec.getLsbD_signExtend]
  simp [hi, hi']

/-- The bytes of an instruction word, the highest first. -/
theorem byte_iBytes (mem : Mem) (addr : Word) {k : ℕ} (hk : k < 16) :
    byte (iBytes mem addr) (16 - k - 1) = mem (addr + BitVec.ofNat 64 k) := by
  rw [iBytes, WordBytes.byte_foldl_setByte_rev rfl _ 0 hk, ofChar_eq]

/-- The bytes of a data word, the lowest first. -/
theorem byte_dBytes (mem : Mem) (addr : Word) {k : ℕ} (hk : k < 8) :
    byte (dBytes mem addr) k = mem (addr + BitVec.ofNat 64 k) := by
  have hturn : 8 - (8 - k - 1) - 1 = k := by omega
  have hbyte := WordBytes.byte_foldl_setByte_rev (w := 64) (n := 8) rfl
    (fun bytes ↦ ofChar (mem (addr + 8 - BitVec.ofNat 64 bytes - 1))) 0
    (show 8 - k - 1 < 8 by omega)
  have haddr : addr + 8 - BitVec.ofNat 64 (8 - k - 1) - 1 = addr + BitVec.ofNat 64 k := by
    bv_omega
  rwa [hturn, ofChar_eq, haddr] at hbyte

/-! ## The loops and the words of the model -/

/-- The bytes of a little-endian word. -/
theorem byte_load (mem : Mem) (addr : Word) {k : ℕ} (hk : k < 8) :
    byte (load mem addr) k = mem (addr + BitVec.ofNat 64 k) := by
  rw [load]
  interval_cases k <;> simp

theorem dRead_eq (mem : Mem) (addr : Word) : dRead mem addr = memDRead mem addr := by
  have hword : dBytes mem addr = load mem addr := by
    refine WordBytes.eq_of_byte_eq (n := 8) rfl fun k hk ↦ ?_
    rw [byte_dBytes mem addr hk, byte_load mem addr hk]
  rw [dRead, hword]
  rfl

theorem dWrite_eq (mem : Mem) (addr data : Word) :
    dWrite mem addr data = memDWrite mem addr data := by
  have hmem : writeBytes mem addr data = store mem addr data := by
    funext x
    rw [writeBytes, WordBytes.foldl_update_byte mem addr data (by norm_num)]
    rfl
  rw [dWrite, hmem]
  rfl

theorem iRead_eq (mem : Mem) (addr : Word) : iRead mem addr = memIRead mem addr := by
  rw [iRead, memIRead]
  congr 1
  congr 1
  refine WordBytes.eq_of_byte_eq (n := 16) rfl fun k hk ↦ ?_
  have hturn : 16 - (16 - k - 1) - 1 = k := by omega
  have hbyte := byte_iBytes mem addr (show 16 - k - 1 < 16 by omega)
  rw [hturn] at hbyte
  rw [hbyte]
  interval_cases k <;> simp

/-! ## Calls -/

/-- Calls of `mem_d_write` at aligned addresses, one after the other, go through, and leave each
word as the latest of them wrote it. -/
theorem dWrites_aligned {calls : List (Word × Word)} (hcalls : ∀ w ∈ calls, Aligned w.1)
    (mem : Mem) :
    ∃ mem', dWrites mem calls = some mem' ∧
      ∀ a, Aligned a → dRead mem' a = some (Writes.replay (load mem) calls a) := by
  refine ⟨calls.foldl (fun m w ↦ store m w.1 w.2) mem, ?_, fun a ha ↦ ?_⟩
  · rw [dWrites]
    induction calls generalizing mem with
    | nil => rfl
    | cons w calls ih =>
      have hw : Aligned w.1 := hcalls w List.mem_cons_self
      rw [List.foldlM_cons, dWrite_eq, memDWrite, if_pos hw]
      exact ih (fun w' hmem ↦ hcalls w' (List.mem_cons_of_mem w hmem)) (store mem w.1 w.2)
  · rw [dRead_eq, memDRead, if_pos ha, load_foldl_store hcalls ha]

/-- What a word is after calls of `mem_d_write`: the data of the latest one to it, else the bytes
that were there, the least significant first. -/
structure Written (mem : Mem) (calls : List (Word × Word)) (a : Word) (data : Word) : Prop where
  latest : ∀ pre v post, calls = pre ++ (a, v) :: post → a ∉ post.map Prod.fst → data = v
  initial : a ∉ calls.map Prod.fst →
    bytesUp 8 data = (List.range 8).map fun k ↦ mem (a + BitVec.ofNat 64 k)

theorem written_replay (mem : Mem) (calls : List (Word × Word)) (a : Word) :
    Written mem calls a (Writes.replay (load mem) calls a) := by
  constructor
  case latest =>
    intro pre v post hsplit hpost
    rw [hsplit, Writes.replay_append, Writes.replay_cons, Writes.replay_of_notMem hpost,
      Function.update_self]
  case initial =>
    intro hcalls
    rw [Writes.replay_of_notMem hcalls, bytesUp]
    exact List.map_congr_left fun k hk ↦ byte_load mem a (List.mem_range.mp hk)

/-- The bytes of an instruction word, the most significant first, are those from its address on. -/
theorem bytesDown_iBytes (mem : Mem) (a : Word) :
    bytesDown 16 (iBytes mem a) = (List.range 16).map fun k ↦ mem (a + BitVec.ofNat 64 k) :=
  List.map_congr_left fun _ hk ↦ byte_iBytes mem a (List.mem_range.mp hk)

/-- The bytes of a data word, the least significant first, are those from its address on. -/
theorem bytesUp_dBytes (mem : Mem) (a : Word) :
    bytesUp 8 (dBytes mem a) = (List.range 8).map fun k ↦ mem (a + BitVec.ofNat 64 k) :=
  List.map_congr_left fun _ hk ↦ byte_dBytes mem a (List.mem_range.mp hk)

/-- An instruction word holds the bytes of the two data words. -/
theorem bytesDown_eq_append (mem : Mem) (a : Word) :
    bytesDown 16 (iBytes mem a) = bytesUp 8 (dBytes mem a) ++ bytesUp 8 (dBytes mem (a + 8)) := by
  rw [bytesDown_iBytes, bytesUp_dBytes, bytesUp_dBytes, List.range_add (n := 8) (m := 8),
    List.map_append, List.map_map]
  refine congrArg _ (List.map_congr_left fun k _ ↦ congrArg mem ?_)
  rw [BitVec.ofNat_add, BitVec.add_assoc]
  rfl

/-- **The views agree.** After any calls of `mem_d_write` at aligned addresses, a data word is what
was written there last, one more call elsewhere leaves it, and an instruction word holds the bytes
of the two data words at its address. -/
theorem views_agree (mem : Mem) {calls : List (Word × Word)} (hcalls : ∀ w ∈ calls, Aligned w.1) :
    ∃ mem', dWrites mem calls = some mem' ∧
      (∀ a, Aligned a → ∃ data, dRead mem' a = some data ∧ Written mem calls a data ∧
        ∀ b v, Aligned b → b ≠ a →
          ∃ mem'', dWrite mem' b v = some mem'' ∧ dRead mem'' a = some data) ∧
      ∀ a : Word, a.toNat % 16 = 0 → ∃ inst lo hi, iRead mem' a = some inst ∧
        dRead mem' a = some lo ∧ dRead mem' (a + 8) = some hi ∧
          bytesDown 16 inst = bytesUp 8 lo ++ bytesUp 8 hi := by
  obtain ⟨mem', hwrites, hread⟩ := dWrites_aligned hcalls mem
  refine ⟨mem', hwrites, fun a ha ↦ ?_, fun a ha ↦ ?_⟩
  · refine ⟨_, hread a ha, written_replay mem calls a, fun b v hb hba ↦ ?_⟩
    refine ⟨store mem' b v, ?_, ?_⟩
    · rw [dWrite_eq, memDWrite, if_pos hb]
    · rw [dRead_eq, memDRead, if_pos ha, ByteMemory.load_store_of_ne hb ha hba,
        ← hread a ha, dRead_eq, memDRead, if_pos ha]
  · have hlo : a.toNat % (64 / 8) = 0 := by omega
    have hhi : (a + 8).toNat % (64 / 8) = 0 := by bv_omega
    refine ⟨iBytes mem' a, dBytes mem' a, dBytes mem' (a + 8), if_pos ha, if_pos hlo, if_pos hhi,
      bytesDown_eq_append mem' a⟩

/-- Two writes to one word. -/
theorem views_agree_twice :
    ∃ mem', dWrites (fun _ ↦ 0) [(0x10000, 5), (0x10000, 7)] = some mem' ∧
      (∀ a, Aligned a → ∃ data, dRead mem' a = some data ∧
        Written (fun _ ↦ 0) [(0x10000, 5), (0x10000, 7)] a data ∧
        ∀ b v, Aligned b → b ≠ a →
          ∃ mem'', dWrite mem' b v = some mem'' ∧ dRead mem'' a = some data) ∧
      ∀ a : Word, a.toNat % 16 = 0 → ∃ inst lo hi, iRead mem' a = some inst ∧
        dRead mem' a = some lo ∧ dRead mem' (a + 8) = some hi ∧
          bytesDown 16 inst = bytesUp 8 lo ++ bytesUp 8 hi :=
  views_agree (fun _ ↦ 0)
    (List.forall_mem_cons.mpr ⟨by decide, List.forall_mem_singleton.mpr (by decide)⟩)

end Cse502.Memory
