import Cse502.Library.HexText
import Cse502.Model.Blocks
import Cse502.Model.Fetch
import Mathlib.Data.List.ReduceOption

/-!
# The text of a block

`bin2hex` writes three characters for each byte, two digits and a space, and `input_hook` and
`build_byte_stack` read the text in steps of three. `hexText` names the text of a list of bytes; the
steps meet the byte boundaries of such a text, and of no other.
-/

namespace Cse502.Frontend

open Decoder

/-- The bytes of a block in address order: the first byte is the most significant one. -/
def blockBytes (data : BitVec 128) : List (BitVec 8) :=
  (List.range 16).map fun j ↦ data.extractLsb' (120 - 8 * j) 8

/-- The text of a list of bytes. -/
def hexText (bs : List (BitVec 8)) : List Char :=
  bs.flatMap fun b ↦ HexText.byteText b.toNat ++ [' ']

/-- The high digit of a byte. -/
def hi (b : BitVec 8) : ℕ := b.toNat / 16

/-- The low digit of a byte. -/
def lo (b : BitVec 8) : ℕ := b.toNat % 16

theorem hi_lt (b : BitVec 8) : hi b < 16 := Nat.div_lt_of_lt_mul b.isLt

theorem lo_lt (b : BitVec 8) : lo b < 16 := Nat.mod_lt _ (by decide)

theorem toNat_eq (b : BitVec 8) : b.toNat = 16 * hi b + lo b := (Nat.div_add_mod b.toNat 16).symm

@[simp] theorem length_blockBytes (data : BitVec 128) : (blockBytes data).length = 16 := by
  rw [blockBytes, List.length_map, List.length_range]

@[simp] theorem hexText_nil : hexText [] = [] := rfl

theorem hexText_cons (b : BitVec 8) (bs : List (BitVec 8)) :
    hexText (b :: bs) = (hi b).digitChar :: (lo b).digitChar :: ' ' :: hexText bs := by
  rw [hexText, List.flatMap_cons, HexText.byteText_eq b.isLt]
  rfl

theorem hexText_append (bs cs : List (BitVec 8)) : hexText (bs ++ cs) = hexText bs ++ hexText cs :=
  List.flatMap_append

@[simp] theorem length_hexText (bs : List (BitVec 8)) : (hexText bs).length = 3 * bs.length := by
  induction bs with
  | nil => rfl
  | cons b bs ih => rw [hexText_cons, List.length_cons, List.length_cons, List.length_cons, ih,
      List.length_cons, Nat.mul_add]

theorem drop_hexText (bs : List (BitVec 8)) (j : ℕ) :
    (hexText bs).drop (3 * j) = hexText (bs.drop j) := by
  induction j generalizing bs with
  | zero => rfl
  | succ j ih =>
    cases bs with
    | nil => simp
    | cons b bs =>
      rw [hexText_cons, List.drop_succ_cons, ← ih]
      rfl

/-! ## Writing -/

/-- A number is the value of its lowest bits, most significant first. -/
theorem binaryValue_testBit (n w : ℕ) :
    binaryValue ((List.range w).map fun i ↦ if n.testBit (w - 1 - i) then '1' else '0') =
      n % 2 ^ w := by
  induction w generalizing n with
  | zero => simp [binaryValue, Nat.mod_one]
  | succ w ih =>
    have hinit : ((List.range w).map fun i ↦ if n.testBit (w + 1 - 1 - i) then '1' else '0') =
        (List.range w).map fun i ↦ if (n / 2).testBit (w - 1 - i) then '1' else '0' := by
      refine List.map_congr_left fun i hi ↦ ?_
      have hbit : w + 1 - 1 - i = (w - 1 - i) + 1 := by
        have := List.mem_range.mp hi
        omega
      rw [hbit, Nat.testBit_succ]
    have hlast : (if (if n.testBit (w + 1 - 1 - w) then '1' else '0') = '1' then 1 else 0) =
        n % 2 := by
      rw [Nat.add_sub_cancel, Nat.sub_self, Nat.testBit_zero]
      rcases Nat.mod_two_eq_zero_or_one n with h | h <;> rw [h] <;> rfl
    rw [List.range_succ, List.map_append, hinit, List.map_singleton, binaryValue, List.foldl_append,
      List.foldl_cons, List.foldl_nil, hlast]
    change 2 * binaryValue _ + n % 2 = _
    rw [ih, Nat.pow_succ, Nat.mul_comm (2 ^ w) 2, Nat.mod_mul]
    omega

/-- Eight characters of `to_string` denote a byte of the block. -/
private theorem binaryValue_chunk (data : BitVec 128) {j : ℕ} (hj : j < 16) :
    binaryValue (((toBinary data).drop (8 * j)).take 8) =
      (data.extractLsb' (120 - 8 * j) 8).toNat := by
  have hchunk : ((toBinary data).drop (8 * j)).take 8 =
      (List.range 8).map fun i ↦
        if (data.toNat >>> (120 - 8 * j)).testBit (8 - 1 - i) then '1' else '0' := by
    refine List.ext_getElem (by simp [toBinary]; omega) fun i hi hi' ↦ ?_
    rw [List.length_map, List.length_range] at hi'
    simp only [toBinary, List.getElem_take, List.getElem_drop, List.getElem_map,
      List.getElem_range, Nat.testBit_shiftRight, BitVec.getLsbD]
    rw [show 127 - (8 * j + i) = 120 - 8 * j + (8 - 1 - i) by omega]
  rw [hchunk, binaryValue_testBit, BitVec.extractLsb'_toNat]

/-- `bin2hex` writes the bytes of the block. -/
theorem bin2hex_toBinary (data : BitVec 128) :
    bin2hex (toBinary data) = hexText (blockBytes data) := by
  have hlength : (toBinary data).length = 128 := by
    rw [toBinary, List.length_map, List.length_range]
  rw [bin2hex, hlength, hexText, blockBytes, List.flatMap_map]
  refine List.flatMap_congr fun j hj ↦ ?_
  rw [binaryValue_chunk data (List.mem_range.mp hj)]

/-- The cut of `Fetch` puts zero bytes where the bytes before the target were. -/
theorem blockBytes_range (data : BitVec 128) {pos : ℕ} (hpos : pos < 16) :
    blockBytes (Fetch.range data pos) = List.replicate pos 0 ++ (blockBytes data).drop pos := by
  refine List.ext_getElem (by simp; omega) fun j hj _ ↦ ?_
  rw [length_blockBytes] at hj
  simp only [blockBytes, List.getElem_map, List.getElem_range, List.getElem_append,
    List.length_replicate, List.getElem_replicate, List.getElem_drop]
  split_ifs with hlt
  · ext i hi
    have hcut : ¬120 - 8 * j + i < 128 - 8 * pos := by omega
    simp [Fetch.range, BitVec.getElem_extractLsb', hcut]
  · rw [show pos + (j - pos) = j by omega]
    ext i hi
    simp only [Fetch.range, BitVec.getElem_extractLsb', BitVec.getLsbD_setWidth,
      BitVec.getLsbD_extractLsb']
    have hlow : 120 - 8 * j + i < 128 := by omega
    have hkept : 120 - 8 * j + i < 128 - 8 * pos := by omega
    simp [hlow, hkept]

/-! ## Reading -/

private theorem isHexDigit_digitChar {d : ℕ} (hd : d < 16) : isHexDigit d.digitChar = true := by
  interval_cases d <;> decide

/-- Two digits are read as their number. -/
theorem readHex_two {d e : ℕ} (hd : d < 16) (he : e < 16) :
    readHex [d.digitChar, e.digitChar] = 16 * d + e := by
  rw [readHex, List.dropWhile_cons_of_neg (by simp [HexText.digitChar_ne_space d hd]),
    List.takeWhile_cons_of_pos (isHexDigit_digitChar hd),
    List.takeWhile_cons_of_pos (isHexDigit_digitChar he), List.takeWhile_nil, HexText.value_cons,
    HexText.value_singleton, HexText.digitValue_digitChar hd, HexText.digitValue_digitChar he,
    List.length_singleton]
  omega

/-- A digit before a space is read alone. -/
theorem readHex_one {d : ℕ} (hd : d < 16) : readHex [d.digitChar, ' '] = d := by
  rw [readHex, List.dropWhile_cons_of_neg (by simp [HexText.digitChar_ne_space d hd]),
    List.takeWhile_cons_of_pos (isHexDigit_digitChar hd), List.takeWhile_cons_of_neg (by decide),
    HexText.value_singleton, HexText.digitValue_digitChar hd]

/-- What the `j`-th call of `input_hook` reads. -/
def hookByte (s : List Char) (j : ℕ) : Option (BitVec 8) := (inputHook s (3 * j)).1

/-- The calls of `input_hook` read the text in steps of three. -/
theorem hookCalls_eq (s : List Char) (n j : ℕ) :
    hookCalls s n (3 * j) = (List.range n).map fun i ↦ hookByte s (j + i) := by
  induction n generalizing j with
  | zero => rfl
  | succ n ih =>
    rw [hookCalls, List.range_succ_eq_map, List.map_cons, List.map_map]
    refine congrArg₂ List.cons rfl ?_
    by_cases hend : s.length ≤ 3 * j
    · -- after the end the pointer stands still, and every call finds the end
      have hnone : ∀ i, hookByte s (j + i) = none := fun i ↦ by
        rw [hookByte, inputHook, if_pos (by omega)]
      have hstay : (inputHook s (3 * j)).2 = 3 * j := by rw [inputHook, if_pos hend]
      rw [hstay, ih]
      exact List.map_congr_left fun i _ ↦ (hnone i).trans (hnone (i + 1)).symm
    · have hmove : (inputHook s (3 * j)).2 = 3 * (j + 1) := by rw [inputHook, if_neg hend]; rfl
      rw [hmove, ih]
      refine List.map_congr_left fun i _ ↦ ?_
      rw [Function.comp_apply, Nat.succ_eq_add_one, Nat.add_assoc, Nat.add_comm 1 i]

/-- The text of a list of bytes is read back byte by byte. -/
theorem hookByte_hexText (bs : List (BitVec 8)) (j : ℕ) : hookByte (hexText bs) j = bs[j]? := by
  rw [hookByte, inputHook, length_hexText]
  by_cases hj : bs.length ≤ j
  · rw [if_pos (by omega), List.getElem?_eq_none hj]
  · have hlt : j < bs.length := by omega
    rw [if_neg (by omega), drop_hexText, List.drop_eq_getElem_cons hlt, hexText_cons,
      List.getElem?_eq_getElem hlt]
    change some (BitVec.ofNat 8 (readHex [_, _])) = _
    rw [readHex_two (hi_lt _) (lo_lt _), ← toNat_eq, BitVec.ofNat_toNat, BitVec.setWidth_eq]

private theorem reduceOption_range {α : Type*} (l : List α) (n : ℕ) :
    ((List.range n).map fun i ↦ l[i]?).reduceOption = l.take n := by
  induction n with
  | zero => rfl
  | succ n ih =>
    rw [List.range_succ, List.map_append, List.reduceOption_append, ih, List.map_singleton,
      List.reduceOption_singleton, List.take_add_one]

theorem hookBytes_hexText (bs : List (BitVec 8)) : hookBytes (hexText bs) = bs := by
  have hcalls := hookCalls_eq (hexText bs) (3 * bs.length) 0
  simp only [hookByte_hexText, Nat.zero_add] at hcalls
  rw [hookBytes, length_hexText]
  change (hookCalls _ _ (3 * 0)).reduceOption = bs
  rw [hcalls, reduceOption_range, List.take_of_length_le (by omega)]

theorem buildByteStack_hexText (bs : List (BitVec 8)) :
    buildByteStack (hexText bs) = bs.map fun b ↦ HexText.byteText b.toNat := by
  rw [buildByteStack, length_hexText, show (3 * bs.length + 2) / 3 = bs.length by omega]
  refine List.ext_getElem (by simp) fun j hj _ ↦ ?_
  rw [List.length_map, List.length_range] at hj
  rw [List.getElem_map, List.getElem_map, List.getElem_range, drop_hexText,
    List.drop_eq_getElem_cons hj, hexText_cons, HexText.byteText_eq (BitVec.isLt _)]
  rfl

theorem drain_byteText (bs : List (BitVec 8)) :
    drain (bs.map fun b ↦ HexText.byteText b.toNat) = hexText bs := by
  rw [drain, hexText, List.flatMap_map]

/-! ## Stripping -/

/-- A zero byte is stripped whole. -/
theorem strip_hexText_zero (bs : List (BitVec 8)) :
    strip (hexText (0 :: bs)) = strip (hexText bs) :=
  hexText_cons 0 bs ▸ rfl

theorem strip_hexText_replicate (n : ℕ) (bs : List (BitVec 8)) :
    strip (hexText (List.replicate n 0 ++ bs)) = strip (hexText bs) := by
  induction n with
  | zero => rfl
  | succ n ih => rw [List.replicate_succ, List.cons_append, strip_hexText_zero, ih]

private theorem not_isPadding {d : ℕ} (hd : d < 16) (h0 : d ≠ 0) :
    ¬isPadding d.digitChar = true := by
  have hzero : d.digitChar ≠ '0' := mt (HexText.digitChar_eq_zero_iff hd).mp h0
  simp [isPadding, hzero, HexText.digitChar_ne_space d hd]

/-- A byte with two digits stops the stripping. -/
theorem strip_hexText_of_hi_ne {b : BitVec 8} (hb : hi b ≠ 0) (bs : List (BitVec 8)) :
    strip (hexText (b :: bs)) = hexText (b :: bs) := by
  rw [hexText_cons, strip, List.dropWhile_cons_of_neg (not_isPadding (hi_lt b) hb)]

/-- A byte with one digit loses the other, and the rest of the text moves by one character. -/
theorem strip_hexText_of_lo_ne {b : BitVec 8} (hb : hi b = 0) (hb' : lo b ≠ 0)
    (bs : List (BitVec 8)) :
    strip (hexText (b :: bs)) = (lo b).digitChar :: ' ' :: hexText bs := by
  rw [hexText_cons, hb, strip, List.dropWhile_cons_of_pos (by decide),
    List.dropWhile_cons_of_neg (not_isPadding (lo_lt b) hb')]

end Cse502.Frontend
