import Cse502.Frontend.Redirect

/-!
# Decoding across block boundaries

An instruction that a block ends inside of is left over as text in `rem_string` and decoded with the
next block. Over a run of blocks, what `crack_opcodes` has received is the whole instructions of the
bytes delivered so far, each with its size and its address, and `rem_string` is the text of the
bytes behind them.

## The invariant

Between two calls `last_good_addr` is the address of the byte behind the last whole instruction, and
`scratch_q` is empty. During a call `scratch_q` holds the text of the bytes still to be decoded, so
that dropping one entry per decoded byte leaves exactly the text of what is left over.
-/

namespace Cse502.Frontend

open Decoder
open Fetch (block)
open PrefixCode (Encoding text whole leftover remaining)

/-! ## One call of the disassembler -/

section Disassemble

variable (u : Udis)

@[simp] theorem disassemble_nil : disassemble u [] = (0, none) := by
  rw [disassemble, PrefixCode.decode_nil, u.invalidLength_nil]

theorem disassemble_append (e : Encoding u.toPrefixCode) (rest : List (BitVec 8)) :
    disassemble u (e.symbols ++ rest) = (e.symbols.length, some e.value) := by
  rw [disassemble, e.decode_append]

/-- An input that ends inside an instruction is taken to its end. -/
theorem disassemble_take (e : Encoding u.toPrefixCode) {n : ℕ} (hn : n < e.symbols.length) :
    disassemble u (e.symbols.take n) = (n, none) := by
  have hnone := e.decode_take hn
  have hall : u.decode (e.symbols.take n ++ e.symbols.drop n) =
      some (e.value, e.symbols.length) := by
    rw [List.take_append_drop, e.decode_eq]
  rw [disassemble, hnone, u.invalidLength_cut hnone hall, List.length_take_of_le hn.le]

end Disassemble

/-! ## The loop -/

/-- The addresses of instructions laid out one after another. -/
def addresses {u : Udis} (a : Word) : List (Encoding u.toPrefixCode) → List Word
  | [] => []
  | e :: es => a :: addresses (a + BitVec.ofNat 64 e.symbols.length) es

/-- The address behind them. -/
def addressAfter {u : Udis} (a : Word) (es : List (Encoding u.toPrefixCode)) : Word :=
  a + BitVec.ofNat 64 (text es).length

theorem addressAfter_cons {u : Udis} (a : Word) (e : Encoding u.toPrefixCode)
    (es : List (Encoding u.toPrefixCode)) :
    addressAfter a (e :: es) = addressAfter (a + BitVec.ofNat 64 e.symbols.length) es := by
  rw [addressAfter, addressAfter, PrefixCode.text_cons, List.length_append, BitVec.ofNat_add,
    BitVec.add_assoc]

theorem addressAfter_append {u : Udis} (a : Word) (es es' : List (Encoding u.toPrefixCode)) :
    addressAfter a (es ++ es') = addressAfter (addressAfter a es) es' := by
  rw [addressAfter, addressAfter, addressAfter, PrefixCode.text_append, List.length_append,
    BitVec.ofNat_add, BitVec.add_assoc]

theorem addresses_append {u : Udis} (a : Word) (es es' : List (Encoding u.toPrefixCode)) :
    addresses a (es ++ es') = addresses a es ++ addresses (addressAfter a es) es' := by
  induction es generalizing a with
  | nil => simp [addresses, addressAfter]
  | cons e es ih => rw [List.cons_append, addresses, ih, addressAfter_cons, addresses,
      List.cons_append]

/-- The text of bytes, entry by entry, as `build_byte_stack` splits it. -/
def byteTexts (bs : List (BitVec 8)) : List (List Char) := bs.map fun b ↦ HexText.byteText b.toNat

/-- What the loop has made of the words in its input that end there. -/
structure Decoded {u : Udis} (es : List (Encoding u.toPrefixCode)) (n : ℕ) (l l' : LoopState) :
    Prop where
  opcodes : l'.opcodes = l.opcodes ++ (whole es n).map Encoding.value
  sizeBytes : l'.sizeBytes = l.sizeBytes ++ (whole es n).map (·.symbols.length)
  addrQ : l'.addrQ = l.addrQ ++ addresses l.tempAddr (whole es n)
  lastGoodAddr : l'.lastGoodAddr = addressAfter l.tempAddr (whole es n)
  remString : l'.remString = l.remString ++ hexText (leftover es n)
  scratchQ : l'.scratchQ = []

/-- The loop ends without input. -/
private theorem decodeLoop_nil (u : Udis) {fuel : ℕ} (hfuel : 0 < fuel) {l : LoopState}
    (hinput : l.input = []) :
    decodeLoop u fuel l =
      { l with remString := l.remString ++ drain l.scratchQ, scratchQ := [] } := by
  obtain ⟨fuel, rfl⟩ := Nat.exists_eq_succ_of_ne_zero hfuel.ne'
  rw [decodeLoop, hinput, disassemble_nil]
  rfl

/-- The variables after a turn that decoded a whole instruction. -/
def afterWhole {u : Udis} (e : Encoding u.toPrefixCode) (rest : List (BitVec 8))
    (l : LoopState) : LoopState :=
  { l with
    input := rest
    sizeBytes := l.sizeBytes ++ [e.symbols.length]
    addrQ := l.addrQ ++ [l.tempAddr]
    tempAddr := l.tempAddr + BitVec.ofNat 64 e.symbols.length
    lastGoodAddr := l.tempAddr + BitVec.ofNat 64 e.symbols.length
    scratchQ := byteTexts rest
    opcodes := l.opcodes ++ [e.value] }

/-- One turn for a whole instruction. -/
theorem decodeLoop_whole (u : Udis) (fuel : ℕ) {l : LoopState}
    (e : Encoding u.toPrefixCode) {rest : List (BitVec 8)} (hinput : l.input = e.symbols ++ rest)
    (hscratch : l.scratchQ = byteTexts l.input) :
    decodeLoop u (fuel + 1) l = decodeLoop u fuel (afterWhole e rest l) := by
  have hdrop : l.scratchQ.drop e.symbols.length = byteTexts rest := by
    rw [hscratch, hinput, byteTexts, ← List.map_drop, List.drop_left, byteTexts]
  rw [decodeLoop, hinput, disassemble_append]
  simp only [e.length_pos.ne', if_false, List.drop_left, hdrop, afterWhole]

/-- One turn for an instruction that is cut. -/
private theorem decodeLoop_cut (u : Udis) (fuel : ℕ) {l : LoopState} (e : Encoding u.toPrefixCode)
    {n : ℕ} (hn : n < e.symbols.length) (hpos : 0 < n) (hinput : l.input = e.symbols.take n)
    (hscratch : l.scratchQ = byteTexts l.input) :
    decodeLoop u (fuel + 1) l = decodeLoop u fuel
      { l with
        input := []
        remString := l.remString ++ hexText (e.symbols.take n)
        scratchQ := []
        lastGoodAddr := l.tempAddr } := by
  have hdrop : (e.symbols.take n).drop n = [] :=
    List.drop_of_length_le (List.length_take_le n e.symbols)
  rw [decodeLoop, hscratch, hinput, disassemble_take u e hn]
  simp only [hpos.ne', if_false, hdrop, byteTexts, drain_byteText]

/-- The loop decodes the words that end in its input. The induction is on the words of the message;
the fuel, one more than the bytes of the input, lasts because no word is empty. -/
theorem decodeLoop_decoded (u : Udis) (es : List (Encoding u.toPrefixCode)) (n fuel : ℕ)
    (l : LoopState) (hinput : l.input = (text es).take n) (hfuel : l.input.length < fuel)
    (hscratch : l.scratchQ = byteTexts l.input)
    (hgood : l.lastGoodAddr = l.tempAddr ∨ l.input ≠ []) :
    Decoded es n l (decodeLoop u fuel l) := by
  induction es generalizing n fuel l with
  | nil =>
    rw [PrefixCode.text_nil, List.take_nil] at hinput
    rw [decodeLoop_nil u (Nat.zero_lt_of_lt hfuel) hinput]
    have hgood := hgood.resolve_right fun h ↦ h hinput
    rw [hinput] at hscratch
    refine ⟨?_, ?_, ?_, ?_, ?_, rfl⟩ <;>
      simp [whole, leftover, addresses, addressAfter, hgood, hscratch, byteTexts, drain]
  | cons e es ih =>
    obtain ⟨fuel, rfl⟩ := Nat.exists_eq_succ_of_ne_zero (Nat.zero_lt_of_lt hfuel).ne'
    by_cases hle : e.symbols.length ≤ n
    · -- the word is there as a whole
      have hinput' : l.input = e.symbols ++ (text es).take (n - e.symbols.length) := by
        rw [hinput, PrefixCode.text_cons, List.take_append, List.take_of_length_le hle]
      have hfuel' : ((text es).take (n - e.symbols.length)).length < fuel := by
        rw [hinput', List.length_append] at hfuel
        have hpos := e.length_pos
        omega
      rw [decodeLoop_whole u fuel e hinput' hscratch]
      have hrest := ih (n - e.symbols.length) fuel (afterWhole e _ l) rfl hfuel' rfl (.inl rfl)
      have hwhole : whole (e :: es) n = e :: whole es (n - e.symbols.length) := if_pos hle
      have hleftover : leftover (e :: es) n = leftover es (n - e.symbols.length) := if_pos hle
      refine ⟨?_, ?_, ?_, ?_, ?_, hrest.scratchQ⟩
      · rw [hrest.opcodes, hwhole]
        exact List.append_assoc _ _ _
      · rw [hrest.sizeBytes, hwhole]
        exact List.append_assoc _ _ _
      · rw [hrest.addrQ, hwhole]
        exact List.append_assoc _ _ _
      · rw [hrest.lastGoodAddr, hwhole, addressAfter_cons]
        rfl
      · rw [hrest.remString, hleftover]
        rfl
    · -- the input ends within the word, or before it
      have hlt : n < e.symbols.length := Nat.lt_of_not_le hle
      have hinput' : l.input = e.symbols.take n := by
        rw [hinput, PrefixCode.text_cons, List.take_append_of_le_length hlt.le]
      have hwhole : whole (e :: es) n = [] := if_neg hle
      have hleftover : leftover (e :: es) n = e.symbols.take n := if_neg hle
      rcases Nat.eq_zero_or_pos n with rfl | hpos
      · have hgood := hgood.resolve_right fun h ↦ h hinput'
        rw [decodeLoop_nil u (Nat.succ_pos fuel) hinput']
        rw [hinput'] at hscratch
        refine ⟨?_, ?_, ?_, ?_, ?_, rfl⟩ <;>
          simp [hwhole, hleftover, addresses, addressAfter, hgood, hscratch, byteTexts, drain]
      · have hfuel' : 0 < fuel := by
          rw [hinput', List.length_take_of_le hlt.le] at hfuel
          omega
        rw [decodeLoop_cut u fuel e hlt hpos hinput' hscratch, decodeLoop_nil u hfuel' rfl]
        refine ⟨?_, ?_, ?_, ?_, ?_, rfl⟩ <;>
          simp [hwhole, hleftover, addresses, addressAfter, drain]

/-! ## One block -/

/-- One call of `decode_opcodes` on a text of whole bytes. -/
theorem decodeOpcodes_decoded (u : Udis) {inData : BitVec 128} (inAddr : Word) {pos : ℕ}
    {d : DecodeState} {bs : List (BitVec 8)} {es : List (Encoding u.toPrefixCode)} {n : ℕ}
    (htext : realign d.firstRun d.ripJump d.remString pos (bin2hex (toBinary inData)) = hexText bs)
    (hbs : bs = (text es).take n) (hne : bs ≠ []) (hscratch : d.scratchQ = []) :
    let r := decodeOpcodes u inData inAddr pos d
    let a := startAddr d inAddr pos
    r.2.opcodes = (whole es n).map Encoding.value ∧
      r.2.sizeBytes = (whole es n).map (·.symbols.length) ∧
      r.2.addrQ = addresses a (whole es n) ∧
      r.1 = ⟨false, false, hexText (leftover es n), addressAfter a (whole es n), []⟩ := by
  intro r a
  have hr : r.2 = decodeLoop u (bs.length + 1)
      ⟨bs, byteTexts bs, [], a, d.lastGoodAddr, [], [], []⟩ := by
    change decodeLoop _ _ _ = _
    simp only [htext, hookBytes_hexText, hscratch, buildByteStack_hexText, List.nil_append]
    rfl
  have hdecoded : Decoded es n _ r.2 :=
    hr ▸ decodeLoop_decoded u es n _ _ hbs (Nat.lt_succ_self _) rfl (.inr hne)
  have hstate : r.1 = ⟨false, false, r.2.remString, r.2.lastGoodAddr, r.2.scratchQ⟩ := rfl
  rw [hstate, hdecoded.remString, hdecoded.lastGoodAddr, hdecoded.scratchQ]
  exact ⟨hdecoded.opcodes, hdecoded.sizeBytes, hdecoded.addrQ, rfl⟩

/-! ## A run over the blocks of a target -/

/-- The decoder between two blocks, and what it has passed to `crack_opcodes`. -/
structure Streamed where
  state : DecodeState
  opcodes : List Ud
  sizes : List ℕ
  addrs : List Word

/-- The decoder at an entry, or after a jump, with nothing passed on yet. `last_good_addr` is left
over too. -/
def Entering.start (lastGoodAddr : Word) : Entering → Streamed
  | .entry => ⟨⟨true, false, [], lastGoodAddr, []⟩, [], [], []⟩
  | .jump remString => ⟨⟨false, true, remString, lastGoodAddr, []⟩, [], [], []⟩

/-- One call, on the `k`-th block `Fetch` delivers for a target. -/
def streamCall (u : Udis) (target : Word) (s : Streamed) (block : BitVec 128 × ℕ) : Streamed :=
  let out := expectedBlock target block.2
  let r := decodeOpcodes u (Fetch.range block.1 out.2.toNat) out.1 out.2.toNat s.state
  ⟨r.1, s.opcodes ++ r.2.opcodes, s.sizes ++ r.2.sizeBytes, s.addrs ++ r.2.addrQ⟩

/-- The calls on consecutive blocks. -/
def streamRun (u : Udis) (target : Word) (blocks : List (BitVec 128)) (s : Streamed) : Streamed :=
  blocks.zipIdx.foldl (streamCall u target) s

/-- The bytes from the target on. -/
def delivered (target : Word) (blocks : List (BitVec 128)) : List (BitVec 8) :=
  (blocks.flatMap blockBytes).drop (target.toNat % 16)

section Run

variable {u : Udis} {target : Word} {es : List (Encoding u.toPrefixCode)}

private theorem expectedBlock_zero_toNat (target : Word) :
    (expectedBlock target 0).2.toNat = target.toNat % 16 := by
  rw [expectedBlock, BitVec.toNat_ofNat]
  omega

/-- The offset added to the address of the block is the target. -/
theorem block_add_offset (target : Word) :
    block target + BitVec.ofNat 64 (target.toNat % 16) = target := by
  rw [← sub_block, BitVec.add_comm, BitVec.sub_add_cancel]

theorem range_zero (data : BitVec 128) : Fetch.range data 0 = data := by
  ext i hi
  simp [Fetch.range]

theorem delivered_concat (target : Word) (first : BitVec 128) (rest : List (BitVec 128))
    (data : BitVec 128) :
    delivered target (first :: (rest ++ [data])) =
      delivered target (first :: rest) ++ blockBytes data := by
  have hle : target.toNat % 16 ≤ ((first :: rest).flatMap blockBytes).length := by
    rw [List.flatMap_cons, List.length_append, length_blockBytes]
    omega
  rw [delivered, ← List.cons_append, List.flatMap_append, List.drop_append_of_le_length hle,
    List.flatMap_singleton, delivered]

/-- What the decoder has passed on, and what it keeps, after the first `n` bytes of a message. -/
structure Passed (target : Word) (es : List (Encoding u.toPrefixCode)) (n : ℕ) (s : Streamed) :
    Prop where
  opcodes : s.opcodes = (whole es n).map Encoding.value
  sizes : s.sizes = (whole es n).map (·.symbols.length)
  addrs : s.addrs = addresses target (whole es n)
  state : s.state = ⟨false, false, hexText (leftover es n), addressAfter target (whole es n), []⟩

theorem start_realign (e : Entering) (lastGoodAddr : Word) (pos : ℕ) (s : List Char) :
    let d := (e.start lastGoodAddr).state
    realign d.firstRun d.ripJump d.remString pos s = strip s := by
  cases e with
  | entry => exact Entering.text_eq pos s .entry
  | jump remString => exact Entering.text_eq pos s (.jump remString)

theorem startAddr_start (e : Entering) (lastGoodAddr target : Word) :
    startAddr (e.start lastGoodAddr).state (block target) (target.toNat % 16) = target := by
  have hadd := block_add_offset target
  cases e <;> exact hadd

/-- The first block. Whatever `rem_string` held is dropped with it. -/
private theorem passed_first (e : Entering) (lastGoodAddr : Word) {first : BitVec 128}
    (hstream : delivered target [first] <+: text es)
    (hfirst : hi ((blockBytes first).getD (target.toNat % 16) 0) ≠ 0) :
    Passed target es (delivered target [first]).length
      (streamRun u target [first] (e.start lastGoodAddr)) := by
  have hpos : target.toNat % 16 < 16 := Nat.mod_lt _ (by decide)
  have hdelivered : delivered target [first] = (blockBytes first).drop (target.toNat % 16) := by
    rw [delivered, List.flatMap_singleton]
  have hcons : (blockBytes first).drop (target.toNat % 16) =
      (blockBytes first).getD (target.toNat % 16) 0 ::
        (blockBytes first).drop (target.toNat % 16 + 1) := by
    have hlt : target.toNat % 16 < (blockBytes first).length := by rwa [length_blockBytes]
    rw [List.drop_eq_getElem_cons hlt, List.getD_eq_getElem?_getD, List.getElem?_eq_getElem hlt,
      Option.getD_some]
  have htext : strip (bin2hex (toBinary (Fetch.range first (target.toNat % 16)))) =
      hexText (delivered target [first]) := by
    rw [bin2hex_toBinary, blockBytes_range _ hpos, strip_hexText_replicate, hdelivered, hcons,
      strip_hexText_of_hi_ne hfirst]
  have hne : delivered target [first] ≠ [] := by
    rw [hdelivered, hcons]
    exact List.cons_ne_nil _ _
  have hscratch : (e.start lastGoodAddr).state.scratchQ = [] := by cases e <;> rfl
  obtain ⟨hopcodes, hsizes, haddrs, hstate⟩ := decodeOpcodes_decoded u (block target)
    ((start_realign e lastGoodAddr _ _).trans htext) (List.prefix_iff_eq_take.mp hstream) hne
    hscratch
  rw [startAddr_start] at haddrs hstate
  have hrun : streamRun u target [first] (e.start lastGoodAddr) =
      streamCall u target (e.start lastGoodAddr) (first, 0) := rfl
  have hnil : (e.start lastGoodAddr).opcodes = [] ∧ (e.start lastGoodAddr).sizes = [] ∧
      (e.start lastGoodAddr).addrs = [] := by cases e <;> exact ⟨rfl, rfl, rfl⟩
  rw [hrun, streamCall]
  simp only [expectedBlock_zero_toNat, hnil, List.nil_append]
  exact ⟨hopcodes, hsizes, haddrs, hstate⟩

/-- A later block goes behind the text that is left over. -/
theorem realign_next (r bs : List (BitVec 8)) :
    realign false false (hexText r) 0 (hexText bs) = hexText (r ++ bs) := by
  rw [hexText_append]
  by_cases hr : hexText r = []
  · simp [realign, hr]
  · simp [realign, hr]

/-- A later block. -/
private theorem passed_next {n k : ℕ} {s : Streamed} {data : BitVec 128}
    (hs : Passed target es n s) (hdata : blockBytes data = ((text es).drop n).take 16) :
    Passed target es (n + 16) (streamCall u target s (data, k + 1)) := by
  have hbs : leftover es n ++ blockBytes data =
      (text (remaining es n)).take ((leftover es n).length + 16) := by
    rw [hdata, PrefixCode.leftover_append]
  have hne : leftover es n ++ blockBytes data ≠ [] := by
    intro hnil
    have hlength := congrArg List.length hnil
    rw [List.length_append, length_blockBytes] at hlength
    cases hlength
  have htext : realign s.state.firstRun s.state.ripJump s.state.remString 0
      (bin2hex (toBinary (Fetch.range data 0))) = hexText (leftover es n ++ blockBytes data) := by
    rw [hs.state, range_zero, bin2hex_toBinary, realign_next]
  have hstart : startAddr s.state (expectedBlock target (k + 1)).1 0 =
      addressAfter target (whole es n) := by
    rw [hs.state]
    rfl
  obtain ⟨hopcodes, hsizes, haddrs, hstate⟩ := decodeOpcodes_decoded u
    (expectedBlock target (k + 1)).1 htext hbs hne (by rw [hs.state])
  rw [hstart] at haddrs hstate
  have hwhole := PrefixCode.whole_add es n 16
  refine ⟨?_, ?_, ?_, ?_⟩
  · rw [hwhole, List.map_append, ← hs.opcodes, ← hopcodes]
    rfl
  · rw [hwhole, List.map_append, ← hs.sizes, ← hsizes]
    rfl
  · rw [hwhole, addresses_append, ← hs.addrs, ← haddrs]
    rfl
  · rw [hwhole, addressAfter_append, PrefixCode.leftover_add, ← hstate]
    rfl

/-- Every block keeps what was passed on in step with the bytes delivered. -/
theorem passed_run (e : Entering) (lastGoodAddr : Word) (first : BitVec 128)
    (rest : List (BitVec 128)) (hstream : delivered target (first :: rest) <+: text es)
    (hfirst : hi ((blockBytes first).getD (target.toNat % 16) 0) ≠ 0) :
    Passed target es (delivered target (first :: rest)).length
      (streamRun u target (first :: rest) (e.start lastGoodAddr)) := by
  induction rest using List.reverseRecOn with
  | nil => exact passed_first e lastGoodAddr hstream hfirst
  | append_singleton rest data ih =>
    rw [delivered_concat] at hstream ⊢
    obtain ⟨tail, htail⟩ := hstream
    have hprefix : delivered target (first :: rest) <+: text es :=
      ⟨blockBytes data ++ tail, by rw [← htail, List.append_assoc]⟩
    have hdata : blockBytes data =
        ((text es).drop (delivered target (first :: rest)).length).take 16 := by
      rw [← htail, List.append_assoc, List.drop_left, ← length_blockBytes data, List.take_left]
    have hrun : streamRun u target (first :: (rest ++ [data])) (e.start lastGoodAddr) =
        streamCall u target (streamRun u target (first :: rest) (e.start lastGoodAddr))
          (data, rest.length + 1) := by
      rw [streamRun, ← List.cons_append, List.zipIdx_append, List.foldl_append, streamRun,
        List.length_cons, Nat.zero_add]
      rfl
    rw [hrun, List.length_append, length_blockBytes]
    exact passed_next (ih hprefix) hdata

end Run

/-- **Decoding does not depend on block boundaries.** Of a message that is a sequence of
instructions, `crack_opcodes` has received those that end in the blocks delivered so far, each once,
in order and under its own address, and `rem_string` holds the bytes behind them. Once the message
is delivered, it has received all of them and nothing is left over. -/
theorem streamRun_decodes (u : Udis) (e : Entering) (lastGoodAddr target : Word)
    (first : BitVec 128) (rest : List (BitVec 128)) (es : List (Encoding u.toPrefixCode))
    (hstream : delivered target (first :: rest) <+: text es)
    (hfirst : hi ((blockBytes first).getD (target.toNat % 16) 0) ≠ 0) :
    let s := streamRun u target (first :: rest) (e.start lastGoodAddr)
    let bytes := delivered target (first :: rest)
    let done := whole es bytes.length
    (s.opcodes = done.map Encoding.value ∧ s.sizes = done.map (·.symbols.length) ∧
      s.addrs = addresses target done) ∧
    (∃ undecoded, s.state.remString = hexText undecoded ∧ text done ++ undecoded = bytes) ∧
    (bytes = text es → done = es ∧ s.state.remString = []) := by
  intro s bytes done
  have hs : Passed target es bytes.length s := passed_run e lastGoodAddr first rest hstream hfirst
  have hrem : s.state.remString = hexText (leftover es bytes.length) := by rw [hs.state]
  refine ⟨⟨hs.opcodes, hs.sizes, hs.addrs⟩, ⟨leftover es bytes.length, hrem, ?_⟩, fun hall ↦ ?_⟩
  · rw [PrefixCode.text_whole_append_leftover]
    exact (List.prefix_iff_eq_take.mp hstream).symm
  · have hdone : done = es := by
      change whole es bytes.length = es
      rw [hall, PrefixCode.whole_text]
    rw [hrem, hall, PrefixCode.leftover_text]
    exact ⟨hdone, rfl⟩

/-! ## A run of moves -/

/-- `mov rbx, rax`, as udis86 reports it. -/
def movUd : Ud where
  mnemonic := .mov
  operand0 := ⟨.reg, 64, .gpr .rbx, .none, 0, 0, 0⟩
  operand1 := ⟨.reg, 64, .gpr .rax, .none, 0, 0, 0⟩
  operand2 := .none

/-- A disassembler that knows `mov rbx, rax` only. -/
def movUdis : Udis where
  decode bytes := if bytes.take 3 = [0x48, 0x89, 0xc3] then some (movUd, 3) else none
  length_pos {bytes ud n} h := by
    split_ifs at h with hmov
    cases h
    have hlength := congrArg List.length hmov
    rw [List.length_take] at hlength
    exact ⟨by decide, (min_eq_left_iff.mp hlength)⟩
  prefix_free {bytes ud n} h rest := by
    split_ifs at h with hmov
    cases h
    rw [hmov]
    rfl
  invalidLength := List.length
  invalidLength_nil := rfl
  invalidLength_cut _ _ := rfl

/-- `mov rbx, rax`. -/
def movEncoding : Encoding movUdis.toPrefixCode := ⟨[0x48, 0x89, 0xc3], movUd, rfl⟩

/-- Two blocks of moves: the sixth lies across their boundary, and the eleventh is cut off. -/
theorem streamRun_movs :
    let s := streamRun movUdis 0x400
      [0x4889c34889c34889c34889c34889c348, 0x89c34889c34889c34889c34889c34889]
      (Entering.entry.start 0)
    s.opcodes = List.replicate 10 movUd ∧ s.sizes = List.replicate 10 3 ∧
      s.addrs = (List.range 10).map fun j ↦ 0x400 + BitVec.ofNat 64 (3 * j) := by
  have h := (streamRun_decodes movUdis .entry 0 0x400 0x4889c34889c34889c34889c34889c348
    [0x89c34889c34889c34889c34889c34889] (List.replicate 11 movEncoding) (by decide +kernel)
    (by decide)).1
  exact ⟨h.1.trans (by decide +kernel), h.2.1.trans (by decide +kernel),
    h.2.2.trans (by decide +kernel)⟩

end Cse502.Frontend
