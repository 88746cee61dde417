import Cse502.Frontend.BlockText
import Cse502.Frontend.Fetching

/-!
# The first block of a target

`Fetch` cuts the bytes before the target off its block, and zero bytes take their place. The decoder
does not use the offset to skip them: it erases leading `0` and space characters of the text.

The erasing stops at the target's first byte if that byte has two digits. A first byte such as
`0x0f` loses its leading zero, and from then on every read of `input_hook` starts in the middle of a
byte; a zero byte is lost altogether.
-/

namespace Cse502.Frontend

open Decoder
open Fetch (block)

/-! ## What the hook feeds -/

/-- The calls of `input_hook` return these bytes and then the end of the input. -/
def Feeds (s : List Char) (bs : List (BitVec 8)) : Prop :=
  ∀ n, hookCalls s n 0 = (bs.map some ++ List.replicate n none).take n

theorem feeds_iff (s : List Char) (bs : List (BitVec 8)) :
    Feeds s bs ↔ ∀ j, hookByte s j = bs[j]? := by
  have hcalls : ∀ n, hookCalls s n 0 = (List.range n).map (hookByte s) := fun n ↦ by
    have heq := hookCalls_eq s n 0
    simpa using heq
  have hexpected : ∀ n i, i < n →
      ((bs.map some ++ List.replicate n none).take n)[i]? = some bs[i]? := by
    intro n i hi
    rw [List.getElem?_take_of_lt hi, List.getElem?_append, List.length_map]
    split_ifs with hlt
    · rw [List.getElem?_map, List.getElem?_eq_getElem hlt]
      rfl
    · rw [List.getElem?_replicate_of_lt (by omega), List.getElem?_eq_none (Nat.le_of_not_lt hlt)]
  constructor
  · intro h j
    have hj := congrArg (·[j]?) (h (j + 1))
    simp only [hcalls, hexpected (j + 1) j (Nat.lt_succ_self j), List.getElem?_map,
      List.getElem?_range (Nat.lt_succ_self j), Option.map_some, Option.some.injEq] at hj
    exact hj
  · intro h n
    rw [hcalls]
    refine List.ext_getElem? fun i ↦ ?_
    rcases Nat.lt_or_ge i n with hi | hi
    · rw [hexpected n i hi, List.getElem?_map, List.getElem?_range hi, Option.map_some, h i]
    · rw [List.getElem?_eq_none (by simpa using hi), List.getElem?_eq_none (by simp; omega)]

/-- The bytes of a target survive the stripping. -/
def Survives : List (BitVec 8) → Prop
  | [] => True
  | b :: bs => hi b ≠ 0 ∨ lo b ≠ 0 ∧ ∀ c ∈ bs, hi c = 0

instance : DecidablePred Survives
  | [] => isTrue trivial
  | b :: bs => inferInstanceAs (Decidable (hi b ≠ 0 ∨ lo b ≠ 0 ∧ ∀ c ∈ bs, hi c = 0))

/-- A read that starts at the second digit of a byte. -/
private theorem hookByte_shifted (d : Char) (bs : List (BitVec 8)) (j : ℕ) :
    hookByte (d :: ' ' :: hexText bs) (j + 1) = bs[j]?.map fun c ↦ BitVec.ofNat 8 (lo c) := by
  have hlength : (d :: ' ' :: hexText bs).length = 3 * bs.length + 2 := by
    rw [List.length_cons, List.length_cons, length_hexText]
  rw [hookByte, inputHook, hlength]
  by_cases hj : bs.length ≤ j
  · rw [if_pos (by omega), List.getElem?_eq_none hj]
    rfl
  · have hlt : j < bs.length := Nat.lt_of_not_le hj
    have hdrop : (d :: ' ' :: hexText bs).drop (3 * (j + 1)) =
        (lo bs[j]).digitChar :: ' ' :: hexText (bs.drop (j + 1)) := by
      rw [show 3 * (j + 1) = 3 * j + 1 + 2 by omega, List.drop_succ_cons, List.drop_succ_cons,
        ← List.drop_drop, drop_hexText, List.drop_eq_getElem_cons hlt, hexText_cons]
      rfl
    rw [if_neg (by omega), hdrop, List.getElem?_eq_getElem hlt]
    change some (BitVec.ofNat 8 (readHex [_, ' '])) = _
    rw [readHex_one (lo_lt _)]
    rfl

/-- A byte with one digit is its low digit. -/
private theorem ofNat_lo_eq_iff (c : BitVec 8) : BitVec.ofNat 8 (lo c) = c ↔ hi c = 0 := by
  have hc := toNat_eq c
  have hlo := lo_lt c
  rw [← BitVec.toNat_inj, BitVec.toNat_ofNat, Nat.mod_eq_of_lt (by omega)]
  omega

private theorem feeds_shifted_iff {b : BitVec 8} (hb : hi b = 0) (bs : List (BitVec 8)) :
    Feeds ((lo b).digitChar :: ' ' :: hexText bs) (b :: bs) ↔ ∀ c ∈ bs, hi c = 0 := by
  have hfirst : hookByte ((lo b).digitChar :: ' ' :: hexText bs) 0 = some b := by
    change some (BitVec.ofNat 8 (readHex [_, ' '])) = _
    rw [readHex_one (lo_lt b), (ofNat_lo_eq_iff b).mpr hb]
  rw [feeds_iff]
  constructor
  · intro h c hc
    obtain ⟨j, hj, rfl⟩ := List.getElem_of_mem hc
    have hread := h (j + 1)
    rw [hookByte_shifted, List.getElem?_cons_succ, List.getElem?_eq_getElem hj, Option.map_some,
      Option.some.injEq] at hread
    exact (ofNat_lo_eq_iff _).mp hread
  · intro h j
    cases j with
    | zero => exact hfirst
    | succ j =>
      rw [hookByte_shifted, List.getElem?_cons_succ]
      cases hj : bs[j]? with
      | none => rfl
      | some c =>
        rw [Option.map_some, (ofNat_lo_eq_iff c).mpr (h c (List.mem_of_getElem? hj))]

/-- A zero byte is missing from the text, so the end of the input comes too early. -/
private theorem not_feeds_zero (bs : List (BitVec 8)) :
    ¬Feeds (strip (hexText (0 :: bs))) (0 :: bs) := by
  rw [feeds_iff]
  intro h
  have hend : hookByte (strip (hexText (0 :: bs))) bs.length = none := by
    have hlength := (List.dropWhile_suffix isPadding (l := hexText bs)).length_le
    rw [length_hexText] at hlength
    rw [strip_hexText_zero, hookByte, inputHook, strip, if_pos hlength]
  rw [h, List.getElem?_eq_getElem (by simp)] at hend
  cases hend

/-- The stripped text of a target feeds the target. -/
theorem feeds_strip_iff (bs : List (BitVec 8)) : Feeds (strip (hexText bs)) bs ↔ Survives bs := by
  cases bs with
  | nil => exact iff_of_true ((feeds_iff _ _).mpr fun j ↦ by cases j <;> rfl) trivial
  | cons b bs =>
    by_cases hb : hi b = 0
    · by_cases hb' : lo b = 0
      · have hzero : b = 0 := by
          apply BitVec.eq_of_toNat_eq
          rw [toNat_eq, hb, hb']
          rfl
        subst hzero
        refine iff_of_false (not_feeds_zero bs) ?_
        rintro (h | ⟨h, -⟩)
        · exact h rfl
        · exact h rfl
      · rw [strip_hexText_of_lo_ne hb hb', feeds_shifted_iff hb, Survives]
        exact ⟨fun h ↦ .inr ⟨hb', h⟩, fun h ↦ (h.resolve_left fun h ↦ h hb).2⟩
    · rw [strip_hexText_of_hi_ne hb]
      exact iff_of_true ((feeds_iff _ _).mpr (hookByte_hexText (b :: bs))) (.inl hb)

/-! ## The block of a target -/

/-- How the decoder comes to the first block of a target: at the entry point nothing is left over,
after a jump the text left over on the abandoned path still is. -/
inductive Entering
  | entry
  | jump (remString : List Char)

/-- The text the decoder makes of that block. -/
def Entering.text (pos : ℕ) (bitStream : List Char) : Entering → List Char
  | .entry => realign true false [] pos bitStream
  | .jump remString => realign false true remString pos bitStream

theorem Entering.text_eq (pos : ℕ) (bitStream : List Char) (e : Entering) :
    e.text pos bitStream = strip bitStream := by
  cases e with
  | entry => rfl
  | jump remString => simp [Entering.text, realign]

/-- What `Fetch` hands over with an awaited reply. -/
theorem port_data {cur : Signals} {f : Fetch} (tempRIP : Word) (c : Core) (h : Awaited cur f) :
    let out := (Fetch.port cur tempRIP f c).2.nxt
    out.fdOutAlign.toNat = f.prevTag.toNat % 16 ∧
      out.fdOutData = Fetch.range cur.iData (f.prevTag.toNat % 16) := by
  have hif : (cur.iReady = true ∧ Fetch.replyAddr cur = block f.prevTag) := h
  have halign : (f.prevTag - Fetch.replyAddr cur).toNat = f.prevTag.toNat % 16 := by
    rw [h.2, sub_block, BitVec.toNat_ofNat]
    omega
  have hdata : (if f.prevTag ≠ Fetch.replyAddr cur then
        Fetch.range cur.iData (f.prevTag - Fetch.replyAddr cur).toNat else cur.iData) =
      Fetch.range cur.iData (f.prevTag.toNat % 16) := by
    split_ifs with hne
    · rw [halign]
    · have hsub := halign
      rw [not_not.mp hne, BitVec.sub_self] at hsub
      rw [not_not.mp hne, ← hsub]
      ext i hi
      simp [Fetch.range]
  intro out
  have hout : out = (Fetch.accept cur tempRIP f { c with nxt.fdOutReady := false }).2.nxt ∨
      out = (Fetch.request tempRIP
        (Fetch.accept cur tempRIP f { c with nxt.fdOutReady := false }).2).nxt := by
    simp only [out, Fetch.port, if_pos hif]
    split_ifs
    · exact .inr rfl
    · exact .inl rfl
  rcases hout with hout | hout <;> rw [hout] <;> exact ⟨halign, hdata⟩

/-- **The decoder sees the target exactly if its first byte survives.** After an entry or a jump,
the hook feeds the bytes of the block from the target on, and then the end of the input, exactly if
the first of them has two digits, or if none of them has and the first is not zero. -/
theorem feeds_target_iff (cur : Signals) (f : Fetch) (tempRIP : Word) (c : Core) (e : Entering)
    (h : Awaited cur f) :
    let out := (Fetch.port cur tempRIP f c).2.nxt
    let target := (blockBytes cur.iData).drop (f.prevTag.toNat % 16)
    Feeds (e.text out.fdOutAlign.toNat (bin2hex (toBinary out.fdOutData))) target ↔
      Survives target := by
  intro out target
  obtain ⟨-, hdata⟩ := port_data tempRIP c h
  have htext : strip (bin2hex (toBinary out.fdOutData)) = strip (hexText target) := by
    rw [hdata, bin2hex_toBinary, blockBytes_range _ (Nat.mod_lt _ (by decide)),
      strip_hexText_replicate]
  rw [Entering.text_eq, htext]
  exact feeds_strip_iff target

/-- A reply with a block, and everything else at rest. -/
def blockReply (tag : BitVec 32) (data : BitVec 128) : Signals :=
  { Signals.zero with iReady := true, iTagout := tag, iData := data }

/-- The core at rest. -/
def restCore : Core := Core.boot (fun _ ↦ 0) ⟨0⟩ (fun _ ↦ 0) (Execute.init 0 Uop.zero)

/-- A block with `mov rbx, rax` at offset 3. -/
def movBlock : BitVec 128 := 0x0f0f0f4889c390909090909090909090

/-- A jump to the `mov` of that block. -/
theorem feeds_target_mov :
    let out :=
      (Fetch.port (blockReply 0x400 movBlock) 0x400 ⟨0x403, false, 0x403, 0⟩ restCore).2.nxt
    Feeds (Entering.text out.fdOutAlign.toNat (bin2hex (toBinary out.fdOutData)) (.jump []))
      ((blockBytes movBlock).drop 3) :=
  (feeds_target_iff (blockReply 0x400 movBlock) ⟨0x403, false, 0x403, 0⟩ 0x400 restCore (.jump [])
    (by decide)).mpr (by decide)

/-- `jz` loses the zero of `0x0f`, and the byte after it is read from its second digit on. -/
theorem not_feeds_jz : ¬∀ (cur : Signals) (f : Fetch) (tempRIP : Word) (c : Core) (e : Entering),
    Awaited cur f →
      let out := (Fetch.port cur tempRIP f c).2.nxt
      Feeds (e.text out.fdOutAlign.toNat (bin2hex (toBinary out.fdOutData)))
        ((blockBytes cur.iData).drop (f.prevTag.toNat % 16)) := by
  intro h
  have hfeeds := h (blockReply 0x400 0x0f841000000090909090909090909090) ⟨0x400, false, 0x400, 0⟩
    0x400 restCore (.jump []) (by decide)
  -- the first two calls return 0x0f and 0x04
  exact absurd (hfeeds 2) (by decide +kernel)

end Cse502.Frontend
