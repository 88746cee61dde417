import Cse502.Frontend.Streaming
import Cse502.Pipeline.Branching

/-!
# Decoding a program from memory

The decoder meets the instructions of a program in the blocks of the guest memory, each under its
own address and with its own size. Where the program ends it goes on with whatever bytes there are,
until it is redirected.

## Where the decoder stands

Between two blocks the decoder stands at an address, behind the last whole instruction, and keeps
the text of the bytes it has from there. At the entry point and after a redirection it keeps nothing
that matters, and the first byte must be one that its stripping does not destroy.
-/

namespace Cse502.Machine

open Decoder (Ud Udis Uninit DecodeState LoopState Queues crackOpcodes decodeOpcodes decodeLoop
  realign startAddr bin2hex toBinary strip)
open Fetch (block range)
open Frontend (blockBytes hexText hi byteTexts addresses addressAfter Entering afterWhole)
open Pipeline (BranchInsn BranchProgram Delivery)
open PrefixCode (Encoding text whole leftover)

/-! ## Bytes -/

/-- The bytes of a memory from an address on. -/
def bytesFrom (mem : Mem) (a : Word) (n : ℕ) : List (BitVec 8) :=
  (List.range n).map fun k ↦ mem (a + BitVec.ofNat 64 k)

section Bytes

variable (mem : Mem) (a : Word)

@[simp] theorem length_bytesFrom (n : ℕ) : (bytesFrom mem a n).length = n := by
  rw [bytesFrom, List.length_map, List.length_range]

@[simp] theorem bytesFrom_zero : bytesFrom mem a 0 = [] := rfl

theorem bytesFrom_add (n k : ℕ) : bytesFrom mem a (n + k) =
    bytesFrom mem a n ++ bytesFrom mem (a + BitVec.ofNat 64 n) k := by
  rw [bytesFrom, List.range_add, List.map_append, List.map_map, bytesFrom, bytesFrom]
  congr 1
  refine List.map_congr_left fun j _ ↦ ?_
  rw [Function.comp_apply, BitVec.ofNat_add, BitVec.add_assoc]

theorem take_bytesFrom {n k : ℕ} (h : k ≤ n) : (bytesFrom mem a n).take k = bytesFrom mem a k := by
  obtain ⟨j, rfl⟩ := Nat.exists_eq_add_of_le h
  rw [bytesFrom_add, List.take_left' (length_bytesFrom mem a k)]

theorem drop_bytesFrom {n k : ℕ} (h : k ≤ n) : (bytesFrom mem a n).drop k =
    bytesFrom mem (a + BitVec.ofNat 64 k) (n - k) := by
  obtain ⟨j, rfl⟩ := Nat.exists_eq_add_of_le h
  rw [bytesFrom_add, List.drop_left' (length_bytesFrom mem a k), Nat.add_sub_cancel_left]

theorem bytesFrom_succ (n : ℕ) : bytesFrom mem a (n + 1) = mem a :: bytesFrom mem (a + 1) n := by
  rw [Nat.add_comm, bytesFrom_add]
  simp [bytesFrom]

end Bytes

/-! ## Programs in memory -/

variable {u : Udis} {mem : Mem} {prog : BranchProgram}

/-- The bytes of the memory are those of the program's instructions. -/
def Loaded (u : Udis) (mem : Mem) (prog : BranchProgram) : Prop :=
  ∀ a insn, prog.insn a = some insn → ∃ e : Encoding u.toPrefixCode,
    e.symbols = bytesFrom mem a (prog.size a) ∧ Decoder.crack e.value = some [insn.push]

/-- These are the instructions of the program from an address on. -/
def Laid (prog : BranchProgram) : Word → List (Encoding u.toPrefixCode) → Prop
  | _, [] => True
  | a, e :: es => (∃ insn, prog.insn a = some insn ∧ prog.size a = e.symbols.length ∧
      Decoder.crack e.value = some [insn.push]) ∧ Laid prog (prog.behind a) es

/-- The instructions in the next bytes, or all up to the end of the program. -/
theorem exists_laid (h : Loaded u mem prog) (n : ℕ) (a : Word) :
    ∃ es : List (Encoding u.toPrefixCode), Laid prog a es ∧
      text es = bytesFrom mem a (text es).length ∧
      (n ≤ (text es).length ∨ prog.insn (addressAfter a es) = none) := by
  induction n using Nat.strong_induction_on generalizing a with
  | _ n ih =>
    cases hinsn : prog.insn a with
    | none =>
      refine ⟨[], trivial, rfl, .inr ?_⟩
      simpa [addressAfter] using hinsn
    | some insn =>
      obtain ⟨e, hsymbols, hcrack⟩ := h a insn hinsn
      have hsize : prog.size a = e.symbols.length := by rw [hsymbols, length_bytesFrom]
      rcases Nat.eq_zero_or_pos n with rfl | hn
      · exact ⟨[], trivial, rfl, .inl (Nat.zero_le _)⟩
      · have hpos := e.length_pos
        obtain ⟨es, hlaid, htext, hend⟩ := ih (n - e.symbols.length) (by omega) (prog.behind a)
        have hbehind : prog.behind a = a + BitVec.ofNat 64 e.symbols.length := by
          rw [BranchProgram.behind, hsize]
        refine ⟨e :: es, ⟨⟨insn, hinsn, hsize, hcrack⟩, hlaid⟩, ?_, ?_⟩
        · rw [PrefixCode.text_cons, List.length_append, bytesFrom_add, ← hbehind, ← htext,
            hsymbols, length_bytesFrom]
        · rw [PrefixCode.text_cons, List.length_append, Frontend.addressAfter_cons, ← hbehind]
          exact hend.imp_left fun hle ↦ by omega

/-- An initial part of them. -/
theorem Laid.of_append {a : Word} {es es' : List (Encoding u.toPrefixCode)}
    (h : Laid prog a (es ++ es')) : Laid prog a es := by
  induction es generalizing a with
  | nil => trivial
  | cons e es ih => exact ⟨h.1, ih h.2⟩

/-- The first instruction is no longer than 15 bytes. -/
theorem Laid.whole_ne_nil {a : Word} {es : List (Encoding u.toPrefixCode)} (h : Laid prog a es)
    {n : ℕ} (hn : 16 ≤ n) (hle : n ≤ (text es).length) : whole es n ≠ [] := by
  cases es with
  | nil => exact absurd (hn.trans hle) (Nat.not_succ_le_zero 15)
  | cons e es =>
    obtain ⟨⟨insn, hinsn, hsize, -⟩, -⟩ := h
    have hshort := (prog.sized a (by rw [hinsn]; exact Option.some_ne_none insn)).2
    rw [whole, if_pos (by omega)]
    exact List.cons_ne_nil _ _

/-- What is pushed for the instructions of the program is what the program delivers. -/
theorem Laid.exists_deliveries (uninit : ℕ → Uninit) {a : Word}
    {es : List (Encoding u.toPrefixCode)} (h : Laid prog a es) (sizes : List ℕ)
    (addrs : List Word) (pushed : List Uop) :
    ∃ ds us, crackOpcodes uninit ⟨es.map (·.symbols.length) ++ sizes, addresses a es ++ addrs,
        pushed⟩ (es.map Encoding.value) = ⟨sizes, addrs, pushed ++ us⟩ ∧
      prog.fallThrough ds a = (us, addressAfter a es) ∧ ds.length = es.length := by
  induction es generalizing a pushed with
  | nil => exact ⟨[], [], by simp [crackOpcodes, addresses], by
      simp [BranchProgram.fallThrough, addressAfter], rfl⟩
  | cons e es ih =>
    obtain ⟨⟨insn, hinsn, hsize, hcrack⟩, hrest⟩ := h
    have hbehind : prog.behind a = a + BitVec.ofNat 64 e.symbols.length := by
      rw [BranchProgram.behind, hsize]
    obtain ⟨ds, us, hpush, hfall, hlength⟩ :=
      ih hrest (pushed ++ [prog.uop (uninit pushed.length) a insn])
    refine ⟨⟨uninit pushed.length, [], 0⟩ :: ds, prog.uop (uninit pushed.length) a insn :: us,
      ?_, ?_, congrArg Nat.succ hlength⟩
    · rw [hbehind] at hpush
      rw [List.append_cons, ← hpush]
      simp [crackOpcodes, Decoder.crackStep, hcrack, addresses, BranchProgram.uop, hsize]
    · rw [BranchProgram.fallThrough, hinsn, hfall, Frontend.addressAfter_cons, hbehind]

/-! ## Bytes that are no program -/

/-- The lists of the loop grow, and nothing is left in `scratch_q`. -/
structure Extends (l l' : LoopState) : Prop where
  opcodes : l.opcodes <+: l'.opcodes
  sizeBytes : l.sizeBytes <+: l'.sizeBytes
  addrQ : l.addrQ <+: l'.addrQ
  scratchQ : l'.scratchQ = []

theorem decodeLoop_extends (u : Udis) (fuel : ℕ) (l : LoopState) (h : l.input.length < fuel) :
    Extends l (decodeLoop u fuel l) := by
  induction fuel generalizing l with
  | zero => exact absurd h (Nat.not_lt_zero _)
  | succ fuel ih =>
    rw [decodeLoop]
    by_cases hzero : (Decoder.disassemble u l.input).1 = 0
    · rw [if_pos hzero]
      exact ⟨List.prefix_rfl, List.prefix_rfl, List.prefix_rfl, rfl⟩
    · have hne : l.input ≠ [] := by
        intro hnil
        rw [hnil, Frontend.disassemble_nil] at hzero
        exact hzero rfl
      have hlength : (l.input.drop (Decoder.disassemble u l.input).1).length < fuel := by
        have hpos := List.length_pos_iff.mpr hne
        rw [List.length_drop]
        omega
      rw [if_neg hzero]
      cases hresult : (Decoder.disassemble u l.input).2 with
      | none =>
        have hrest := ih { l with
          input := l.input.drop (Decoder.disassemble u l.input).1
          remString := l.remString ++ Decoder.drain l.scratchQ
          scratchQ := []
          lastGoodAddr := l.tempAddr } hlength
        exact ⟨hrest.opcodes, hrest.sizeBytes, hrest.addrQ, hrest.scratchQ⟩
      | some ud =>
        have hrest := ih { l with
          input := l.input.drop (Decoder.disassemble u l.input).1
          sizeBytes := l.sizeBytes ++ [(Decoder.disassemble u l.input).1]
          addrQ := l.addrQ ++ [l.tempAddr]
          tempAddr := l.tempAddr + BitVec.ofNat 64 (Decoder.disassemble u l.input).1
          lastGoodAddr := l.tempAddr + BitVec.ofNat 64 (Decoder.disassemble u l.input).1
          scratchQ := l.scratchQ.drop (Decoder.disassemble u l.input).1
          opcodes := l.opcodes ++ [ud] } hlength
        exact ⟨(List.prefix_append _ _).trans hrest.opcodes,
          (List.prefix_append _ _).trans hrest.sizeBytes,
          (List.prefix_append _ _).trans hrest.addrQ, hrest.scratchQ⟩

/-- Instructions in front of other bytes are decoded first. -/
theorem decodeLoop_text (u : Udis) (es : List (Encoding u.toPrefixCode)) (rest : List (BitVec 8))
    (fuel : ℕ) (l : LoopState) (hinput : l.input = text es ++ rest) (hfuel : l.input.length < fuel)
    (hscratch : l.scratchQ = byteTexts l.input) :
    l.opcodes ++ es.map Encoding.value <+: (decodeLoop u fuel l).opcodes ∧
      l.sizeBytes ++ es.map (·.symbols.length) <+: (decodeLoop u fuel l).sizeBytes ∧
      l.addrQ ++ addresses l.tempAddr es <+: (decodeLoop u fuel l).addrQ ∧
      (decodeLoop u fuel l).scratchQ = [] := by
  induction es generalizing fuel l with
  | nil =>
    have h := decodeLoop_extends u fuel l hfuel
    simp only [List.map_nil, List.append_nil, addresses]
    exact ⟨h.opcodes, h.sizeBytes, h.addrQ, h.scratchQ⟩
  | cons e es ih =>
    obtain ⟨fuel, rfl⟩ := Nat.exists_eq_succ_of_ne_zero (Nat.zero_lt_of_lt hfuel).ne'
    rw [PrefixCode.text_cons, List.append_assoc] at hinput
    have hfuel' : (text es ++ rest).length < fuel := by
      have hpos := e.length_pos
      rw [hinput, List.length_append] at hfuel
      omega
    rw [Frontend.decodeLoop_whole u fuel e hinput hscratch]
    have hrest := ih fuel (afterWhole e (text es ++ rest) l) rfl hfuel' rfl
    rw [List.map_cons, List.map_cons, addresses, List.append_cons l.opcodes,
      List.append_cons l.sizeBytes, List.append_cons l.addrQ]
    exact hrest

/-! ## One block -/

/-- Where the decoder stands: behind the last whole instruction, with the bytes before `next`. -/
inductive Standing (mem : Mem) (d : DecodeState) (next a : Word) : Prop
  /-- Nothing of the target is decoded yet. -/
  | entering (e : Entering) (lastGoodAddr : Word) (hd : d = (e.start lastGoodAddr).state)
      (hnext : next = a) (hfirst : hi (mem a) ≠ 0)
  /-- The bytes behind the last instruction are left over. -/
  | between (r : ℕ) (hd : d = ⟨false, false, hexText (bytesFrom mem a r), a, []⟩)
      (hnext : next = a + BitVec.ofNat 64 r) (haligned : next.toNat % 16 = 0)

/-- A block handed over from `next` on. -/
structure Handed (mem : Mem) (inData : BitVec 128) (inAddr inAlign next : Word) : Prop where
  addr : inAddr = block next
  align : inAlign.toNat = next.toNat % 16
  data : ∃ data, inData = range data (next.toNat % 16) ∧
    blockBytes data = bytesFrom mem (block next) 16

variable {inData : BitVec 128} {inAddr inAlign next a : Word} {d : DecodeState}

/-- The bytes of a block from an address on. -/
private theorem drop_block {data : BitVec 128} (next : Word)
    (h : blockBytes data = bytesFrom mem (block next) 16) :
    (blockBytes data).drop (next.toNat % 16) = bytesFrom mem next (16 - next.toNat % 16) := by
  rw [h, drop_bytesFrom mem _ (Nat.mod_lt _ (by decide)).le, Frontend.block_add_offset]

/-- The text the decoder makes of a block, and the address it starts from. -/
theorem Standing.exists_text (h : Standing mem d next a)
    (hb : Handed mem inData inAddr inAlign next) :
    ∃ n, next + BitVec.ofNat 64 (16 - next.toNat % 16) = a + BitVec.ofNat 64 n ∧ 0 < n ∧
      realign d.firstRun d.ripJump d.remString inAlign.toNat (bin2hex (toBinary inData)) =
        hexText (bytesFrom mem a n) ∧
      startAddr d inAddr inAlign.toNat = a ∧ d.scratchQ = [] ∧
      (d.firstRun = false → d.ripJump = false → 16 ≤ n) := by
  obtain ⟨data, hdata, hblock⟩ := hb.data
  have hpos : next.toNat % 16 < 16 := Nat.mod_lt _ (by decide)
  have hdrop := drop_block next hblock
  cases h with
  | entering e lastGoodAddr hd hnext hfirst =>
    subst hnext
    refine ⟨16 - next.toNat % 16, rfl, by omega, ?_, ?_, ?_, ?_⟩
    · obtain ⟨k, hk⟩ : ∃ k, 16 - next.toNat % 16 = k + 1 := ⟨15 - next.toNat % 16, by omega⟩
      rw [hd, Frontend.start_realign, hdata, Frontend.bin2hex_toBinary,
        Frontend.blockBytes_range _ hpos, Frontend.strip_hexText_replicate, hdrop, hk,
        bytesFrom_succ, Frontend.strip_hexText_of_hi_ne hfirst]
    · rw [hd, hb.addr, hb.align, Frontend.startAddr_start]
    · rw [hd]
      cases e <;> rfl
    · rw [hd]
      cases e with
      | entry => exact fun hfirstRun ↦ by cases hfirstRun
      | jump => exact fun _ hripJump ↦ by cases hripJump
  | between r hd hnext haligned =>
    rw [haligned, Nat.sub_zero]
    refine ⟨r + 16, ?_, by omega, ?_, ?_, ?_, fun _ _ ↦ Nat.le_add_left 16 r⟩
    · rw [hnext, BitVec.ofNat_add, BitVec.add_assoc]
    · rw [haligned, List.drop_zero, Nat.sub_zero] at hdrop
      rw [hd, hdata, hb.align, haligned, Frontend.range_zero, Frontend.bin2hex_toBinary, hdrop,
        hnext, bytesFrom_add, ← Frontend.realign_next]
    · rw [hd]
      rfl
    · rw [hd]

/-- `decode_opcodes` on the text of these bytes. -/
private theorem decodeOpcodes_eq (u : Udis) (inAddr : Word) {pos : ℕ} {bs : List (BitVec 8)}
    (htext : realign d.firstRun d.ripJump d.remString pos (bin2hex (toBinary inData)) = hexText bs)
    (hscratch : d.scratchQ = []) :
    (decodeOpcodes u inData inAddr pos d).2 = decodeLoop u (bs.length + 1)
      ⟨bs, byteTexts bs, [], startAddr d inAddr pos, d.lastGoodAddr, [], [], []⟩ := by
  change decodeLoop _ _ _ = _
  simp only [htext, Frontend.hookBytes_hexText, hscratch, Frontend.buildByteStack_hexText,
    List.nil_append]
  rfl

/-- Nothing that was pushed is taken back. -/
private theorem crackOpcodes_prefix (uninit : ℕ → Uninit) (q : Queues) (os : List Ud) :
    q.pushed <+: (crackOpcodes uninit q os).pushed := by
  induction os generalizing q with
  | nil => exact List.prefix_rfl
  | cons o os ih =>
    refine List.IsPrefix.trans ?_ (ih (Decoder.crackStep uninit q o))
    rw [Decoder.crackStep]
    split
    · exact List.prefix_append _ _
    · exact List.prefix_rfl

/-- What the decoder does with a block: what it pushes is what the program delivers, and inside the
program it stands behind the block afterwards. Only the first block of a target may be too short for
an instruction. -/
structure Decodes (mem : Mem) (prog : BranchProgram) (next a : Word) (d₀ : DecodeState)
    (pushed : List Uop) (d : DecodeState) : Prop where
  delivered : ∃ ds feed, prog.fallThrough ds a = (pushed, feed) ∧
    (prog.insn feed ≠ none → Standing mem d (next + BitVec.ofNat 64 (16 - next.toNat % 16)) feed) ∧
    (d₀.firstRun = false → d₀.ripJump = false → ds ≠ [])
  settled : d.scratchQ = [] ∧ d.firstRun = false ∧ d.ripJump = false

/-- Outside the program anything may be pushed. -/
private theorem decodes_of_none (uninit : ℕ → Uninit) (ha : prog.insn a = none) :
    let r := decodeOpcodes u inData inAddr inAlign.toNat d
    Decodes mem prog next a d
      (crackOpcodes uninit ⟨r.2.sizeBytes, r.2.addrQ, []⟩ r.2.opcodes).pushed r.1 := by
  intro r
  have hfall : ∀ us, prog.fallThrough [⟨⟨0, 0, 0⟩, us, a⟩] a = (us, a) := fun us ↦ by
    rw [BranchProgram.fallThrough, ha]
    simp only [BranchProgram.fallThrough, List.append_nil]
  exact ⟨⟨_, a, hfall _, fun h ↦ absurd ha h, fun _ _ ↦ List.cons_ne_nil _ _⟩,
    (decodeLoop_extends u _ _ (Nat.lt_succ_self _)).scratchQ, rfl, rfl⟩

private theorem next_aligned (next : Word) :
    (next + BitVec.ofNat 64 (16 - next.toNat % 16)).toNat % 16 = 0 := by
  rw [BitVec.toNat_add, BitVec.toNat_ofNat]
  omega

/-- The block ends inside the program. -/
private theorem decodes_of_le (uninit : ℕ → Uninit) {n : ℕ} (hn : 0 < n)
    (hnext : next + BitVec.ofNat 64 (16 - next.toNat % 16) = a + BitVec.ofNat 64 n)
    (htext : realign d.firstRun d.ripJump d.remString inAlign.toNat (bin2hex (toBinary inData)) =
      hexText (bytesFrom mem a n))
    (hstart : startAddr d inAddr inAlign.toNat = a) (hscratch : d.scratchQ = [])
    (hlong : d.firstRun = false → d.ripJump = false → 16 ≤ n)
    {es : List (Encoding u.toPrefixCode)} (hlaid : Laid prog a es)
    (hbytes : text es = bytesFrom mem a (text es).length) (hle : n ≤ (text es).length) :
    let r := decodeOpcodes u inData inAddr inAlign.toNat d
    Decodes mem prog next a d
      (crackOpcodes uninit ⟨r.2.sizeBytes, r.2.addrQ, []⟩ r.2.opcodes).pushed r.1 := by
  intro r
  have htake : bytesFrom mem a n = (text es).take n := by
    rw [hbytes, take_bytesFrom mem a hle]
  have hne : bytesFrom mem a n ≠ [] := by
    rw [← List.length_pos_iff, length_bytesFrom]
    exact hn
  obtain ⟨hopcodes, hsizes, haddrs, hstate⟩ :=
    Frontend.decodeOpcodes_decoded u inAddr htext htake hne hscratch
  rw [hstart] at haddrs hstate
  have hwhole : Laid prog a (whole es n) := by
    rw [← PrefixCode.whole_append_remaining es n] at hlaid
    exact hlaid.of_append
  obtain ⟨ds, us, hpush, hfall, hcount⟩ := hwhole.exists_deliveries uninit [] [] []
  rw [List.append_nil, List.append_nil, List.nil_append] at hpush
  have hsplit := PrefixCode.text_whole_append_leftover es n
  have hlength : (text (whole es n)).length ≤ n := by
    have h := congrArg List.length hsplit
    rw [List.length_append, List.length_take] at h
    omega
  have hleftover : leftover es n =
      bytesFrom mem (addressAfter a (whole es n)) (n - (text (whole es n)).length) := by
    rw [← htake] at hsplit
    rw [addressAfter, ← drop_bytesFrom mem a hlength, ← hsplit, List.drop_left]
  refine ⟨⟨ds, addressAfter a (whole es n), ?_, fun _ ↦ ?_, fun hfirstRun hripJump hnil ↦ ?_⟩, ?_⟩
  · have hpushed :
        (crackOpcodes uninit ⟨r.2.sizeBytes, r.2.addrQ, []⟩ r.2.opcodes).pushed = us := by
      rw [hopcodes, hsizes, haddrs, hpush]
    rw [hpushed]
    exact hfall
  · refine .between (n - (text (whole es n)).length) ?_ ?_ (next_aligned next)
    · rw [hstate, hleftover]
    · rw [hnext, addressAfter, BitVec.add_assoc, ← BitVec.ofNat_add, Nat.add_sub_cancel' hlength]
  · rw [hnil, List.length_nil] at hcount
    exact hlaid.whole_ne_nil (hlong hfirstRun hripJump) hle (List.length_eq_zero_iff.mp hcount.symm)
  · rw [hstate]
    exact ⟨rfl, rfl, rfl⟩

/-- The program ends inside the block. -/
private theorem decodes_of_lt (uninit : ℕ → Uninit) {n : ℕ}
    (htext : realign d.firstRun d.ripJump d.remString inAlign.toNat (bin2hex (toBinary inData)) =
      hexText (bytesFrom mem a n))
    (hstart : startAddr d inAddr inAlign.toNat = a) (hscratch : d.scratchQ = [])
    {es : List (Encoding u.toPrefixCode)} (hlaid : Laid prog a es)
    (hbytes : text es = bytesFrom mem a (text es).length) (hlt : (text es).length ≤ n)
    (hend : prog.insn (addressAfter a es) = none) :
    let r := decodeOpcodes u inData inAddr inAlign.toNat d
    Decodes mem prog next a d
      (crackOpcodes uninit ⟨r.2.sizeBytes, r.2.addrQ, []⟩ r.2.opcodes).pushed r.1 := by
  intro r
  have hinput : bytesFrom mem a n = text es ++ (bytesFrom mem a n).drop (text es).length := by
    conv_lhs => rw [← List.take_append_drop (text es).length (bytesFrom mem a n)]
    rw [take_bytesFrom mem a hlt, ← hbytes]
  have hloop := decodeOpcodes_eq u inAddr htext hscratch
  obtain ⟨⟨os, hopcodes⟩, ⟨sizes, hsizes⟩, ⟨addrs, haddrs⟩, hscratch'⟩ := decodeLoop_text u es _ _
    ⟨bytesFrom mem a n, byteTexts (bytesFrom mem a n), [], startAddr d inAddr inAlign.toNat,
      d.lastGoodAddr, [], [], []⟩ hinput (Nat.lt_succ_self _) rfl
  rw [← hloop, List.nil_append] at hopcodes hsizes haddrs
  rw [← hloop] at hscratch'
  dsimp only at haddrs
  rw [hstart] at haddrs
  obtain ⟨ds, us, hpush, hfall, -⟩ := hlaid.exists_deliveries uninit sizes addrs []
  obtain ⟨more, hmore⟩ := crackOpcodes_prefix uninit ⟨sizes, addrs, us⟩ os
  have hpushed : (crackOpcodes uninit ⟨r.2.sizeBytes, r.2.addrQ, []⟩ r.2.opcodes).pushed =
      us ++ more := by
    rw [hmore, ← hopcodes, ← hsizes, ← haddrs, crackOpcodes, List.foldl_append]
    exact congrArg (fun q ↦ (crackOpcodes uninit q os).pushed) hpush
  refine ⟨⟨ds ++ [⟨⟨0, 0, 0⟩, more, addressAfter a es⟩], addressAfter a es, ?_,
    fun h ↦ absurd hend h, fun _ _ ↦ by simp⟩, hscratch', rfl, rfl⟩
  rw [BranchProgram.fallThrough_append, hfall, hpushed, BranchProgram.fallThrough, hend]
  simp only [BranchProgram.fallThrough, List.append_nil]

/-- **One block of the program's memory.** -/
theorem decodes_block (hload : Loaded u mem prog) (uninit : ℕ → Uninit)
    (h : prog.insn a ≠ none → Standing mem d next a) (hb : Handed mem inData inAddr inAlign next) :
    let r := decodeOpcodes u inData inAddr inAlign.toNat d
    Decodes mem prog next a d
      (crackOpcodes uninit ⟨r.2.sizeBytes, r.2.addrQ, []⟩ r.2.opcodes).pushed r.1 := by
  cases ha : prog.insn a with
  | none => exact decodes_of_none uninit ha
  | some insn =>
    obtain ⟨n, hnext, hn, htext, hstart, hscratch, hlong⟩ :=
      (h (by rw [ha]; exact Option.some_ne_none insn)).exists_text hb
    obtain ⟨es, hlaid, hbytes, hend⟩ := exists_laid hload n a
    rcases Nat.lt_or_ge (text es).length n with hlt | hle
    · exact decodes_of_lt uninit htext hstart hscratch hlaid hbytes hlt.le
        (hend.resolve_left (Nat.not_le.mpr hlt))
    · exact decodes_of_le uninit hn hnext htext hstart hscratch hlong hlaid hbytes hle

end Cse502.Machine
