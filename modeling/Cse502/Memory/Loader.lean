import Cse502.Model.Boot

/-!
# What the loader leaves in guest memory

Whether a file is accepted is decided header by header, and the copies of an accepted file are those
of its `PT_LOAD` headers in order: a block of zeros, then what was read (`written_loadElf`). The
rest follows from the list of copies alone.

The size check adds two words, which can wrap, and a read that is refused has the result `-1`, which
the count can be as well. `loadElf_loaded_iff` says which of the accepted files are loaded as they
should be: those whose segments end inside guest memory, with the length that they have in the file
and with the one they have in memory, when the sums are taken without wrapping.
-/

namespace Cse502

open Memory (size)

variable {h : Host} {m : Mem} {s s' : Logged m} {p : Phdr}

/-! ## Reading -/

namespace Host

theorem transfer_prefix (h : Host) (dst : Word) (bs : List (BitVec 8)) :
    h.transfer dst bs <+: bs := by
  induction bs generalizing dst with
  | nil => exact List.prefix_rfl
  | cons b bs ih =>
    rw [transfer]
    split
    · exact List.cons_prefix_cons.mpr ⟨rfl, ih (dst + 1)⟩
    · exact List.nil_prefix

theorem read_of_le {count : Word} (hc : 2 ^ 63 ≤ count.toNat) (pos : ℕ) (dst : Word) :
    h.read pos dst count = ([], -1) := if_pos hc

theorem read_of_lt {count : Word} (hc : count.toNat < 2 ^ 63) (pos : ℕ) (dst : Word) :
    h.read pos dst count = (h.transfer dst (h.found pos count.toNat),
      BitVec.ofNat 64 (h.transfer dst (h.found pos count.toNat)).length) := if_neg (by omega)

/-- What is transferred begins the file's bytes from `pos` on. -/
theorem read_prefix (h : Host) (pos : ℕ) (dst count : Word) :
    (h.read pos dst count).1 <+: h.bytes.drop pos := by
  by_cases hc : count.toNat < 2 ^ 63
  · rw [read_of_lt hc]
    exact (h.transfer_prefix _ _).trans (List.take_prefix _ _)
  · rw [read_of_le (Nat.le_of_not_lt hc)]
    exact List.nil_prefix

theorem getElem?_read {pos k : ℕ} {dst count : Word} (hk : k < (h.read pos dst count).1.length) :
    h.bytes[pos + k]? = (h.read pos dst count).1[k]? := by
  obtain ⟨rest, hrest⟩ := h.read_prefix pos dst count
  rw [← List.getElem?_drop, ← hrest, List.getElem?_append_left hk]

theorem length_read_le (h : Host) (pos : ℕ) (dst count : Word) :
    (h.read pos dst count).1.length ≤ count.toNat := by
  by_cases hc : count.toNat < 2 ^ 63
  · rw [read_of_lt hc]
    calc (h.transfer dst (h.found pos count.toNat)).length
        ≤ (h.found pos count.toNat).length := (h.transfer_prefix _ _).length_le
      _ ≤ min count.toNat 0x7ffff000 := List.length_take_le _ _
      _ ≤ count.toNat := min_le_left _ _
  · rw [read_of_le (Nat.le_of_not_lt hc)]
    exact Nat.zero_le _

/-- A result equal to the count: all of it was read, or the read was refused. -/
theorem length_read_of_eq {pos : ℕ} {dst count : Word} (hread : (h.read pos dst count).2 = count) :
    (h.read pos dst count).1.length = count.toNat ∨ count = -1 := by
  have hle := h.length_read_le pos dst count
  by_cases hc : count.toNat < 2 ^ 63
  · left
    rw [read_of_lt hc] at hread hle ⊢
    have hnat := congrArg BitVec.toNat hread
    rwa [BitVec.toNat_ofNat, Nat.mod_eq_of_lt (lt_of_le_of_lt hle count.isLt)] at hnat
  · right
    rw [read_of_le (Nat.le_of_not_lt hc)] at hread
    exact hread.symm

end Host

/-! ## The copies of a file -/

/-- What the loop copies for a header. -/
def Phdr.copies (h : Host) (p : Phdr) : List (Copy 64 (BitVec 8)) :=
  if p.type = ptLoad then
    [⟨p.vaddr, List.replicate p.memsz.toNat 0⟩,
      ⟨p.vaddr, (h.read p.offset.toNat p.vaddr p.filesz).1⟩]
  else []

/-- What the loop has checked of a segment. -/
structure Phdr.Accepted (h : Host) (p : Phdr) : Prop where
  sum_le : p.vaddr + p.memsz ≤ size
  read_eq : (h.read p.offset.toNat p.vaddr p.filesz).2 = p.filesz

theorem loadHeader_ok (hs : loadHeader h p s = .ok s') :
    s'.written = s.written ++ p.copies h ∧ (p.type = ptLoad → p.Accepted h) := by
  rw [loadHeader] at hs
  rw [Phdr.copies]
  split at hs
  · rename_i hload
    split at hs
    · contradiction
    · rename_i hsum
      split at hs
      · contradiction
      · split at hs
        · contradiction
        · simp only at hs
          split at hs
          · rename_i hread
            have hs' := (Except.ok.inj hs).symm
            subst hs'
            rw [if_pos hload, Logged.written_copy, Logged.written_copy, List.append_assoc]
            exact ⟨rfl, fun _ ↦ ⟨BitVec.not_lt.mp hsum, hread⟩⟩
          · contradiction
  · rename_i hload
    split at hs
    · rw [if_neg hload, List.append_nil, Except.ok.inj hs]
      exact ⟨rfl, fun hl ↦ absurd hl hload⟩
    · contradiction

theorem loadHeaders_ok {ps : List Phdr} (hs : loadHeaders h ps s = .ok s') :
    s'.written = s.written ++ ps.flatMap (Phdr.copies h) ∧
      ∀ p ∈ ps, p.type = ptLoad → p.Accepted h := by
  induction ps generalizing s with
  | nil =>
    rw [Except.ok.inj hs, List.flatMap_nil, List.append_nil]
    exact ⟨rfl, fun p hp ↦ absurd hp List.not_mem_nil⟩
  | cons p ps ih =>
    rw [loadHeaders] at hs
    rcases hp : loadHeader h p s with e | s₁
    · rw [hp] at hs
      contradiction
    · rw [hp] at hs
      have hhead := loadHeader_ok hp
      have htail := ih hs
      rw [htail.1, hhead.1, List.flatMap_cons, List.append_assoc]
      exact ⟨rfl, List.forall_mem_cons.mpr ⟨hhead.2, htail.2⟩⟩

/-- **The copies of an accepted file.** -/
theorem written_loadElf {r : Logged m × Word} (hr : loadElf h m = .ok r) :
    r.1.written = h.phdrs.flatMap (Phdr.copies h) ∧
      ∀ p ∈ h.phdrs, p.type = ptLoad → p.Accepted h := by
  rw [loadElf] at hr
  split at hr
  · contradiction
  · split at hr
    · contradiction
    · split at hr
      · contradiction
      · split at hr
        · contradiction
        · rcases hs : loadHeaders h h.phdrs (.start m) with e | s
          · rw [hs] at hr
            contradiction
          · rw [hs] at hr
            rw [← Except.ok.inj hr]
            exact loadHeaders_ok hs

/-! ## Segments -/

namespace Phdr

/-- The address belongs to a segment that is loaded. -/
def Spans (p : Phdr) (x : Word) : Prop :=
  p.type = ptLoad ∧ (x - p.vaddr).toNat < max p.memsz.toNat p.filesz.toNat

/-- The segment ends inside guest memory, and so do the bytes that come from the file. -/
def FitsGuest (p : Phdr) : Prop :=
  p.vaddr.toNat + p.memsz.toNat ≤ size.toNat ∧ p.vaddr.toNat + p.filesz.toNat ≤ size.toNat

instance : DecidablePred FitsGuest := fun _ ↦ instDecidableAnd

variable (h)

theorem copies_of_load (hp : p.type = ptLoad) :
    p.copies h = [⟨p.vaddr, List.replicate p.memsz.toNat 0⟩,
      ⟨p.vaddr, (h.read p.offset.toNat p.vaddr p.filesz).1⟩] := if_pos hp

/-- The copies of a header stay in its segment. -/
theorem not_covers_of_not_spans {x : Word} (hx : ¬p.Spans x) :
    ∀ c ∈ p.copies h, ¬c.Covers x := by
  intro c hc hcov
  by_cases hp : p.type = ptLoad
  · have hlen := h.length_read_le p.offset.toNat p.vaddr p.filesz
    rw [copies_of_load h hp, List.mem_cons, List.mem_singleton] at hc
    apply hx
    rcases hc with rfl | rfl
    · rw [Copy.covers_mk, List.length_replicate] at hcov
      exact ⟨hp, lt_max_of_lt_left hcov⟩
    · rw [Copy.covers_mk] at hcov
      exact ⟨hp, lt_max_of_lt_right (lt_of_lt_of_le hcov hlen)⟩
  · rw [copies, if_neg hp] at hc
    exact absurd hc List.not_mem_nil

variable {h}

theorem Accepted.vaddr_le (ha : p.Accepted h) (hmem : p.memsz.toNat = 0) :
    p.vaddr.toNat ≤ size.toNat := by
  have hsum := BitVec.le_def.mp ha.sum_le
  rwa [BitVec.toNat_add, hmem, Nat.add_zero, Nat.mod_eq_of_lt p.vaddr.isLt] at hsum

theorem Accepted.length_read (ha : p.Accepted h) (hp : p.FitsGuest) :
    (h.read p.offset.toNat p.vaddr p.filesz).1.length = p.filesz.toNat := by
  rcases Host.length_read_of_eq ha.read_eq with hlen | hneg
  · exact hlen
  · have hsize : p.filesz.toNat ≤ size.toNat := le_of_add_le_right hp.2
    rw [hneg] at hsize
    exact absurd hsize (by decide)

end Phdr

/-! ## Loading as it should be -/

/-- What a loader leaves in guest memory, and where it has written. -/
structure Loaded (h : Host) (s : Logged m) : Prop where
  /-- It has written to guest memory only. -/
  inside : ∀ c ∈ s.written, c.Inside size
  /-- The bytes of the file, where no later segment lies over them. -/
  fileBytes : ∀ before p after, h.phdrs = before ++ p :: after → p.type = ptLoad →
    ∀ k < p.filesz.toNat, (∀ q ∈ after, ¬q.Spans (p.vaddr + BitVec.ofNat 64 k)) →
      h.bytes[p.offset.toNat + k]? = some (s.mem (p.vaddr + BitVec.ofNat 64 k))
  /-- The rest of the segment is zero there. -/
  rest : ∀ before p after, h.phdrs = before ++ p :: after → p.type = ptLoad →
    ∀ k < p.memsz.toNat, p.filesz.toNat ≤ k →
      (∀ q ∈ after, ¬q.Spans (p.vaddr + BitVec.ofNat 64 k)) →
        s.mem (p.vaddr + BitVec.ofNat 64 k) = 0

variable {r : Logged m × Word} {before after : List Phdr}

/-- The copies before, of and after one segment. -/
theorem written_split (hr : loadElf h m = .ok r) (hsplit : h.phdrs = before ++ p :: after)
    (hp : p.type = ptLoad) :
    r.1.written = before.flatMap (Phdr.copies h) ++ ⟨p.vaddr, List.replicate p.memsz.toNat 0⟩ ::
      ⟨p.vaddr, (h.read p.offset.toNat p.vaddr p.filesz).1⟩ :: after.flatMap (Phdr.copies h) := by
  rw [(written_loadElf hr).1, hsplit, List.flatMap_append, List.flatMap_cons,
    Phdr.copies_of_load h hp]
  rfl

theorem accepted_of_split (hr : loadElf h m = .ok r) (hsplit : h.phdrs = before ++ p :: after)
    (hp : p.type = ptLoad) : p.Accepted h := by
  apply (written_loadElf hr).2 p _ hp
  rw [hsplit]
  exact List.mem_append_right before List.mem_cons_self

theorem not_covers_after {x : Word} (hx : ∀ q ∈ after, ¬q.Spans x) :
    ∀ c ∈ after.flatMap (Phdr.copies h), ¬c.Covers x := by
  intro c hc
  obtain ⟨q, hq, hcq⟩ := List.mem_flatMap.mp hc
  exact Phdr.not_covers_of_not_spans h (hx q hq) c hcq

/-! ### Segments that fit -/

theorem inside_of_fits (hfit : p.type = ptLoad → p.FitsGuest) :
    ∀ c ∈ p.copies h, c.Inside size := by
  intro c hc
  by_cases hp : p.type = ptLoad
  · have hlen := h.length_read_le p.offset.toNat p.vaddr p.filesz
    obtain ⟨hmem, hfile⟩ := hfit hp
    rw [Phdr.copies_of_load h hp, List.mem_cons, List.mem_singleton] at hc
    rcases hc with rfl | rfl
    · refine Copy.inside_iff.mpr (Or.inr ?_)
      rwa [List.length_replicate]
    · exact Copy.inside_iff.mpr (Or.inr (le_trans (Nat.add_le_add_left hlen _) hfile))
  · rw [Phdr.copies, if_neg hp] at hc
    exact absurd hc List.not_mem_nil

theorem fileBytes_of_fits (hr : loadElf h m = .ok r) (hsplit : h.phdrs = before ++ p :: after)
    (hp : p.type = ptLoad) (hfit : p.FitsGuest) {k : ℕ} (hk : k < p.filesz.toNat)
    (hx : ∀ q ∈ after, ¬q.Spans (p.vaddr + BitVec.ofNat 64 k)) :
    h.bytes[p.offset.toNat + k]? = some (r.1.mem (p.vaddr + BitVec.ofNat 64 k)) := by
  have hlen := (accepted_of_split hr hsplit hp).length_read hfit
  have hkd : k < (h.read p.offset.toNat p.vaddr p.filesz).1.length := by rwa [hlen]
  rw [Host.getElem?_read hkd, r.1.mem_eq, written_split hr hsplit hp, List.append_cons]
  exact Copy.getElem?_runAll (c := ⟨p.vaddr, _⟩) m _ hkd (lt_trans hk p.filesz.isLt)
    (not_covers_after hx)

theorem rest_of_fits (hr : loadElf h m = .ok r) (hsplit : h.phdrs = before ++ p :: after)
    (hp : p.type = ptLoad) {k : ℕ} (hk : k < p.memsz.toNat) (hfile : p.filesz.toNat ≤ k)
    (hx : ∀ q ∈ after, ¬q.Spans (p.vaddr + BitVec.ofNat 64 k)) :
    r.1.mem (p.vaddr + BitVec.ofNat 64 k) = 0 := by
  have hkw : k < 2 ^ 64 := lt_trans hk p.memsz.isLt
  have hkd : k < (List.replicate p.memsz.toNat (0 : BitVec 8)).length := by
    rwa [List.length_replicate]
  -- what was read ends before the byte
  have hread : ¬Copy.Covers ⟨p.vaddr, (h.read p.offset.toNat p.vaddr p.filesz).1⟩
      (p.vaddr + BitVec.ofNat 64 k) := by
    rw [Copy.covers_mk, Copy.toNat_add_sub p.vaddr hkw, not_lt]
    exact le_trans (h.length_read_le _ _ _) hfile
  have hlast := Copy.getElem?_runAll (c := ⟨p.vaddr, List.replicate p.memsz.toNat 0⟩) m
    (before.flatMap (Phdr.copies h)) hkd hkw
    (List.forall_mem_cons.mpr ⟨hread, not_covers_after (h := h) hx⟩)
  rw [← written_split hr hsplit hp, ← r.1.mem_eq, List.getElem?_replicate, if_pos hk] at hlast
  exact (Option.some.inj hlast).symm

/-! ### Segments that do not -/

/-- A read that was refused leaves bytes of the file out, and one of them is under no later segment
that fits: the byte `2 ^ 63`, which the file is too short to have. -/
theorem filesz_ne_of_loaded (hl : Loaded h r.1) (hsplit : h.phdrs = before ++ p :: after)
    (hp : p.type = ptLoad) (hafter : ∀ q ∈ after, q.type = ptLoad → q.FitsGuest)
    (hvaddr : p.vaddr.toNat ≤ size.toNat) : p.filesz ≠ -1 := by
  intro hneg
  obtain ⟨k, hk⟩ : ∃ k : ℕ, k = 2 ^ 63 := ⟨_, rfl⟩
  have hkf : k < p.filesz.toNat := by
    rw [hneg, hk]
    decide
  have hsize : size.toNat = 0x4000000 := rfl
  have hspans : ∀ q ∈ after, ¬q.Spans (p.vaddr + BitVec.ofNat 64 k) := by
    rintro q hq ⟨hload, hlt⟩
    obtain ⟨hmem, hfile⟩ := hafter q hq hload
    rw [BitVec.toNat_sub, Copy.toNat_add (by omega)] at hlt
    omega
  have hlength := h.length_lt
  have hbyte := hl.fileBytes before p after hsplit hp k hkf hspans
  rw [List.getElem?_eq_none (by omega)] at hbyte
  contradiction

theorem fits_of_loaded (hr : loadElf h m = .ok r) (hl : Loaded h r.1)
    (hsplit : h.phdrs = before ++ p :: after) (hp : p.type = ptLoad)
    (hafter : ∀ q ∈ after, q.type = ptLoad → q.FitsGuest) : p.FitsGuest := by
  have ha := accepted_of_split hr hsplit hp
  have hin : ∀ c ∈ p.copies h, c.Inside size := by
    intro c hc
    apply hl.inside c
    rw [(written_loadElf hr).1, hsplit, List.flatMap_append, List.flatMap_cons]
    exact List.mem_append_right _ (List.mem_append_left _ hc)
  rw [Phdr.copies_of_load h hp, List.forall_mem_cons, List.forall_mem_singleton, Copy.inside_iff,
    Copy.inside_iff, List.length_replicate] at hin
  have hmem : p.vaddr.toNat + p.memsz.toNat ≤ size.toNat := by
    rcases hin.1 with hzero | hle
    · have hvaddr := ha.vaddr_le hzero
      omega
    · exact hle
  have hne := filesz_ne_of_loaded hl hsplit hp hafter (by omega)
  have hlen := (Host.length_read_of_eq ha.read_eq).resolve_right hne
  rw [hlen] at hin
  refine ⟨hmem, ?_⟩
  rcases hin.2 with hzero | hle
  · omega
  · exact hle

/-- From the last segment to the first. -/
theorem forall_fits_of_loaded (hr : loadElf h m = .ok r) (hl : Loaded h r.1) (before : List Phdr)
    (hsplit : h.phdrs = before ++ after) : ∀ p ∈ after, p.type = ptLoad → p.FitsGuest := by
  induction after generalizing before with
  | nil => exact fun p hp ↦ absurd hp List.not_mem_nil
  | cons p after ih =>
    have htail := ih (before ++ [p]) (by rw [hsplit, List.append_assoc, List.singleton_append])
    exact List.forall_mem_cons.mpr ⟨fun hp ↦ fits_of_loaded hr hl hsplit hp htail, htail⟩

/-- **The files that are loaded as they should be**, among those that are accepted. -/
theorem loadElf_loaded_iff (hr : loadElf h m = .ok r) :
    Loaded h r.1 ↔ ∀ p ∈ h.phdrs, p.type = ptLoad → p.FitsGuest := by
  constructor
  · intro hl
    exact forall_fits_of_loaded hr hl [] rfl
  · intro hfit
    have hmem : ∀ before p after, h.phdrs = before ++ p :: after → p ∈ h.phdrs := by
      intro before p after hsplit
      rw [hsplit]
      exact List.mem_append_right before List.mem_cons_self
    refine ⟨?_, ?_, ?_⟩
    · intro c hc
      rw [(written_loadElf hr).1] at hc
      obtain ⟨p, hp, hcp⟩ := List.mem_flatMap.mp hc
      exact inside_of_fits (hfit p hp) c hcp
    · intro before p after hsplit hp k hk hx
      exact fileBytes_of_fits hr hsplit hp (hfit p (hmem before p after hsplit) hp) hk hx
    · intro before p after hsplit hp k hk hfile hx
      exact rest_of_fits hr hsplit hp hk hfile hx

/-! ### Files with one segment -/

/-- A file of 624 bytes: the two headers, and sevens. -/
def oneSegment (offset vaddr filesz memsz : Word) : List (BitVec 8) :=
  List.replicate 32 0 ++ WordBytes.bytesUp 8 (64 : Word) ++ List.replicate 16 0 ++ [1, 0] ++
    List.replicate 6 0 ++ [1, 0, 0, 0, 6, 0, 0, 0] ++ WordBytes.bytesUp 8 offset ++
    WordBytes.bytesUp 8 vaddr ++ WordBytes.bytesUp 8 vaddr ++ WordBytes.bytesUp 8 filesz ++
    WordBytes.bytesUp 8 memsz ++ WordBytes.bytesUp 8 (0x1000 : Word) ++ List.replicate 504 7

theorem length_oneSegment (offset vaddr filesz memsz : Word) :
    (oneSegment offset vaddr filesz memsz).length = 624 := by
  simp only [oneSegment, WordBytes.length_bytesUp, List.length_append, List.length_replicate,
    List.length_cons, List.length_nil]

/-- The file, where the guest's memory and `margin` bytes below it can be written. -/
def oneSegmentHost (offset vaddr filesz memsz margin : Word) : Host where
  bytes := oneSegment offset vaddr filesz memsz
  length_lt := by
    rw [length_oneSegment]
    decide
  writable dst := decide (dst + margin < size + margin)

theorem exists_of_isOk (hok : (loadElf h m).isOk = true) : ∃ r, loadElf h m = .ok r := by
  rcases hr : loadElf h m with e | r
  · rw [hr] at hok
    exact absurd hok Bool.false_ne_true
  · exact ⟨r, rfl⟩

theorem loadElf_loaded_one : ∃ r, loadElf (oneSegmentHost 120 0x10000 4 8 0) (fun _ ↦ 1) = .ok r ∧
    Loaded (oneSegmentHost 120 0x10000 4 8 0) r.1 := by
  have hphdrs : (oneSegmentHost 120 0x10000 4 8 0).phdrs = [⟨1, 120, 0x10000, 4, 8⟩] := by
    decide +kernel
  obtain ⟨r, hr⟩ := exists_of_isOk (h := oneSegmentHost 120 0x10000 4 8 0) (m := fun _ ↦ 1)
    (by decide +kernel)
  refine ⟨r, hr, (loadElf_loaded_iff hr).mpr ?_⟩
  rw [hphdrs, List.forall_mem_singleton]
  intro _
  decide

/-- A sum that wraps lets the byte below guest memory be cleared, and the result `-1` of a read that
is refused equals the count `-1`. -/
theorem not_loaded_one :
    (∃ r, loadElf (oneSegmentHost 120 (-1) 0 1 1) (fun _ ↦ 1) = .ok r ∧
      ¬Loaded (oneSegmentHost 120 (-1) 0 1 1) r.1) ∧
    ∃ r, loadElf (oneSegmentHost 120 0x10000 (-1) 8 0) (fun _ ↦ 1) = .ok r ∧
      ¬Loaded (oneSegmentHost 120 0x10000 (-1) 8 0) r.1 := by
  constructor
  · have hphdrs : (oneSegmentHost 120 (-1) 0 1 1).phdrs = [⟨1, 120, -1, 0, 1⟩] := by decide +kernel
    obtain ⟨r, hr⟩ := exists_of_isOk (h := oneSegmentHost 120 (-1) 0 1 1) (m := fun _ ↦ 1)
      (by decide +kernel)
    refine ⟨r, hr, fun hl ↦ ?_⟩
    have hwritten : (⟨-1, [0]⟩ : Copy 64 (BitVec 8)) ∈ r.1.written := by
      rw [(written_loadElf hr).1, hphdrs]
      exact List.mem_cons_self
    exact absurd (hl.inside _ hwritten 0 Nat.one_pos) (by decide)
  · have hphdrs : (oneSegmentHost 120 0x10000 (-1) 8 0).phdrs =
        [] ++ ⟨1, 120, 0x10000, -1, 8⟩ :: [] := by decide +kernel
    obtain ⟨r, hr⟩ := exists_of_isOk (h := oneSegmentHost 120 0x10000 (-1) 8 0) (m := fun _ ↦ 1)
      (by decide +kernel)
    refine ⟨r, hr, fun hl ↦ ?_⟩
    exact filesz_ne_of_loaded hl hphdrs rfl (fun q hq ↦ absurd hq List.not_mem_nil) (by decide) rfl

end Cse502
