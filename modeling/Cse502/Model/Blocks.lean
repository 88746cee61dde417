import Cse502.Library.PrefixCode
import Cse502.Model.Decoder

/-!
# Decoding blocks

`decoder.cc`, the half of `Decoder` that feeds udis86: a 16-byte block is turned into hexadecimal
text, realigned, prefixed with what the block before left over, and read byte by byte through
`input_hook`. What udis86 could not decode is left over for the next block.

udis86 itself is outside the sources. `Udis` is what the decoder relies on: an instruction is
recognised from its own bytes, whatever follows them.
-/

namespace Cse502.Decoder

/-! ## Text -/

/-- `sc_bv<128>::to_string`, most significant bit first. -/
def toBinary (data : BitVec 128) : List Char :=
  (List.range 128).map fun i ↦ if data.getLsbD (127 - i) then '1' else '0'

/-- `bitset<128>(str).to_ulong()`. -/
def binaryValue (bits : List Char) : ℕ := bits.foldl (fun n c ↦ 2 * n + if c = '1' then 1 else 0) 0

/-- `Decoder::bin2hex`. -/
def bin2hex (input : List Char) : List Char :=
  (List.range ((input.length + 7) / 8)).flatMap fun j ↦
    HexText.byteText (binaryValue ((input.drop (8 * j)).take 8)) ++ [' ']

/-- The characters `decode_opcodes` erases at the front of a text. -/
def isPadding (c : Char) : Bool := c = '0' || c = ' '

/-- The loop that erases leading `0` and space characters. -/
def strip (bitStream : List Char) : List Char := bitStream.dropWhile isPadding

/-- `bit_stream.insert(pos, s)`. -/
def insert (bitStream : List Char) (pos : ℕ) (s : List Char) : List Char :=
  bitStream.take pos ++ s ++ bitStream.drop pos

/-- What `decode_opcodes` does to the text of a block. -/
def realign (firstRun ripJump : Bool) (remString : List Char) (pos : ℕ) (bitStream : List Char) :
    List Char :=
  let bitStream := if firstRun then strip bitStream else bitStream
  if remString ≠ [] ∧ !ripJump then
    if pos ≠ 0 then insert (insert bitStream pos remString) (pos - 1) [' ']
    else remString ++ bitStream
  else if ripJump then strip bitStream
  else bitStream

/-- The digits `hex` reads; `bin2hex` writes no capital letters. -/
def isHexDigit (c : Char) : Bool := c.isDigit || ('a' ≤ c && c ≤ 'f')

/-- `scratch >> hex >> num`: white space is skipped, and reading stops at the first character that
is no hexadecimal digit. -/
def readHex (s : List Char) : ℕ := HexText.value ((s.dropWhile (· = ' ')).takeWhile isHexDigit)

/-- `Decoder::input_hook` on `byte_stream` and `byte_seek_ptr`. `none` is `UD_EOI`. -/
def inputHook (byteStream : List Char) (byteSeekPtr : ℕ) : Option (BitVec 8) × ℕ :=
  if byteStream.length ≤ byteSeekPtr then (none, byteSeekPtr)
  else (some (BitVec.ofNat 8 (readHex ((byteStream.drop byteSeekPtr).take 2))), byteSeekPtr + 3)

/-- What the first calls of `input_hook` return. -/
def hookCalls (byteStream : List Char) : ℕ → ℕ → List (Option (BitVec 8))
  | 0, _ => []
  | n + 1, byteSeekPtr =>
    let r := inputHook byteStream byteSeekPtr
    r.1 :: hookCalls byteStream n r.2

/-- The bytes before the end of the input. -/
def hookBytes (byteStream : List Char) : List (BitVec 8) :=
  (hookCalls byteStream byteStream.length 0).reduceOption

/-- `Decoder::build_byte_stack`. -/
def buildByteStack (bitStream : List Char) : List (List Char) :=
  (List.range ((bitStream.length + 2) / 3)).map fun j ↦ (bitStream.drop (3 * j)).take 2

/-- The loop that moves `scratch_q` to `rem_string`. -/
def drain (scratchQ : List (List Char)) : List Char := scratchQ.flatMap (· ++ [' '])

/-! ## Disassembling -/

/-- What the decoder relies on of udis86: a valid instruction is determined by its own bytes. Of
anything else some bytes are taken and reported as `UD_Iinvalid`: all bytes of an input that ends
inside an instruction, and `0` if there is no input. -/
structure Udis extends PrefixCode (BitVec 8) Ud where
  invalidLength : List (BitVec 8) → ℕ
  invalidLength_nil : invalidLength [] = 0
  invalidLength_cut : ∀ {bytes more ud n}, decode bytes = none →
    decode (bytes ++ more) = some (ud, n) → invalidLength bytes = bytes.length

/-- `ud_disassemble`: the number of bytes it took, and the instruction, if it is a valid one. -/
def disassemble (u : Udis) (input : List (BitVec 8)) : ℕ × Option Ud :=
  match u.decode input with
  | some (ud, n) => (n, some ud)
  | none => (u.invalidLength input, none)

/-- The variables of the loop of `decode_opcodes`. -/
structure LoopState where
  input : List (BitVec 8)
  scratchQ : List (List Char)
  remString : List Char
  tempAddr : Word
  lastGoodAddr : Word
  sizeBytes : List ℕ
  addrQ : List Word
  opcodes : List Ud
  deriving DecidableEq, Repr

/-- The loop of `decode_opcodes`. Every turn but the last takes at least one byte. -/
def decodeLoop (u : Udis) : ℕ → LoopState → LoopState
  | 0, l => l
  | fuel + 1, l =>
    let r := disassemble u l.input
    if r.1 = 0 then { l with remString := l.remString ++ drain l.scratchQ, scratchQ := [] }
    else match r.2 with
      | none =>
        decodeLoop u fuel { l with
          input := l.input.drop r.1
          remString := l.remString ++ drain l.scratchQ
          scratchQ := []
          lastGoodAddr := l.tempAddr }
      | some ud =>
        decodeLoop u fuel { l with
          input := l.input.drop r.1
          sizeBytes := l.sizeBytes ++ [r.1]
          addrQ := l.addrQ ++ [l.tempAddr]
          tempAddr := l.tempAddr + BitVec.ofNat 64 r.1
          lastGoodAddr := l.tempAddr + BitVec.ofNat 64 r.1
          scratchQ := l.scratchQ.drop r.1
          opcodes := l.opcodes ++ [ud] }

/-- The data members of `Decoder`, with the two globals `RIP_jump` and `scratch_q`. -/
structure DecodeState where
  firstRun : Bool
  ripJump : Bool
  remString : List Char
  lastGoodAddr : Word
  scratchQ : List (List Char)
  deriving DecidableEq, Repr

/-- `temp_addr` at the start of the loop. -/
def startAddr (d : DecodeState) (inAddr : Word) (pos : ℕ) : Word :=
  let tempAddr := if d.firstRun then inAddr else if d.ripJump then inAddr else d.lastGoodAddr
  let tempAddr := if d.firstRun then tempAddr + BitVec.ofNat 64 pos else tempAddr
  if d.ripJump then tempAddr + BitVec.ofNat 64 pos else tempAddr

/-- `Decoder::decode_opcodes` up to the call of `crack_opcodes`, which gets `opcodes` and finds
their sizes and addresses in `size_bytes` and `addr_q`. -/
def decodeOpcodes (u : Udis) (inData : BitVec 128) (inAddr : Word) (pos : ℕ) (d : DecodeState) :
    DecodeState × LoopState :=
  let bitStream := realign d.firstRun d.ripJump d.remString pos (bin2hex (toBinary inData))
  let input := hookBytes bitStream
  let l := decodeLoop u (input.length + 1)
    { input := input
      scratchQ := d.scratchQ ++ buildByteStack bitStream
      remString := []
      tempAddr := startAddr d inAddr pos
      lastGoodAddr := d.lastGoodAddr
      sizeBytes := []
      addrQ := []
      opcodes := [] }
  ({ firstRun := false
     ripJump := false
     remString := l.remString
     lastGoodAddr := l.lastGoodAddr
     scratchQ := l.scratchQ }, l)

/-! ## The stage -/

/-- `Decoder::work`. The front of an empty `size_bytes` or `addr_q` is as in `crackStep`. -/
def work (u : Udis) (uninit : ℕ → Uninit) (cur : Signals) (d : DecodeState) (c : Core) :
    DecodeState × Core :=
  if cur.reset then (d, c)
  else if !cur.fdOutReady then (d, c)
  else if cur.clear then (d, c)
  else
    let r := decodeOpcodes u cur.fdOutData cur.fdOutAddr cur.fdOutAlign.toNat
      { d with ripJump := c.ripJump }
    let q := crackOpcodes uninit ⟨r.2.sizeBytes, r.2.addrQ, []⟩ r.2.opcodes
    (r.1,
      { c with
        ripJump := r.1.ripJump
        ddUopQueue := c.ddUopQueue ++ q.pushed
        nxt.ddOutReady := true })

end Cse502.Decoder
