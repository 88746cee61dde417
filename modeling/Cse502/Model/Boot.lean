import Cse502.Library.Copies
import Cse502.Library.WordBytes
import Cse502.Model.Memory

/-!
# The guest memory before the first cycle

`load_elf` and the part of the constructor of `Memory` that lays out the arguments, both in
`memory.cc`. They write through host pointers, so that a `Mem` is all of the host's memory here: an
address is counted from `mem`, the guest has those below `mem_size`, and the host's bytes below
`mem` are the highest ones. `Logged` keeps what has been written, and where.
-/

namespace Cse502

open Memory (size)

/-! ## The file and the host -/

/-- What `load_elf` meets: the contents of the file, and which bytes can be written. -/
structure Host where
  bytes : List (BitVec 8)
  /-- The length of a file is an `off_t`. -/
  length_lt : bytes.length < 2 ^ 63
  writable : Word → Bool

namespace Host

/-- `lseek` does not fail: the offset is not negative as an `off_t`. -/
def seeks (offset : Word) : Bool := decide (offset.toNat < 2 ^ 63)

/-- What `read` takes from the file, which is never more than `MAX_RW_COUNT`. -/
def found (pos count : ℕ) (h : Host) : List (BitVec 8) :=
  (h.bytes.drop pos).take (min count 0x7ffff000)

/-- What of it gets to the memory: a byte that cannot be written ends the transfer. -/
def transfer (h : Host) : Word → List (BitVec 8) → List (BitVec 8)
  | _, [] => []
  | dst, b :: bs => if h.writable dst then b :: h.transfer (dst + 1) bs else []

/-- `read`, to guest memory: the bytes transferred, and the result. A count that is negative as an
`ssize_t` is refused. -/
def read (pos : ℕ) (dst count : Word) (h : Host) : List (BitVec 8) × Word :=
  if 2 ^ 63 ≤ count.toNat then ([], -1)
  else
    -- the result is `-1` also where not even the first byte can be written; it is `0` here, and
    -- the count asked for is neither
    let data := h.transfer dst (h.found pos count.toNat)
    (data, BitVec.ofNat 64 data.length)

/-- `memset` does not fault. -/
def clears (h : Host) (dst count : Word) : Bool :=
  (List.range count.toNat).all fun k ↦ h.writable (dst + BitVec.ofNat 64 k)

end Host

/-! ## `load_elf` -/

/-- A little-endian field of a header. -/
def field (w : ℕ) (bs : List (BitVec 8)) (off : ℕ) : BitVec w :=
  (List.range (w / 8)).foldr (fun k v ↦ v <<< 8 ||| (bs.getD (off + k) 0).setWidth w) 0

/-- `Elf64_Ehdr`: `e_entry`, `e_phoff` and `e_phnum`. -/
structure Ehdr where
  entry : Word
  phoff : Word
  phnum : BitVec 16
  deriving DecidableEq

/-- `Elf64_Phdr`: `p_type`, `p_offset`, `p_vaddr`, `p_filesz` and `p_memsz`. -/
structure Phdr where
  type : BitVec 32
  offset : Word
  vaddr : Word
  filesz : Word
  memsz : Word
  deriving DecidableEq

/-- `PT_LOAD`. -/
def ptLoad : BitVec 32 := 1

/-- `PT_GNU_STACK`. -/
def ptGnuStack : BitVec 32 := 0x6474e551

/-- The 64 bytes of an `Elf64_Ehdr`. -/
def Ehdr.ofBytes (bs : List (BitVec 8)) : Ehdr := ⟨field 64 bs 24, field 64 bs 32, field 16 bs 56⟩

/-- The 56 bytes of an `Elf64_Phdr`. -/
def Phdr.ofBytes (bs : List (BitVec 8)) : Phdr :=
  ⟨field 32 bs 0, field 64 bs 8, field 64 bs 16, field 64 bs 32, field 64 bs 40⟩

/-- How `load_elf` can end the host process. -/
inductive BootFailure
  | assertion
  /-- `exit(-1)`, with what is printed. -/
  | exit (text : String)
  /-- A write to memory that is not there. -/
  | fault
  deriving DecidableEq, Repr

namespace Host

/-- `ehdr`. -/
def ehdr (h : Host) : Ehdr := .ofBytes (h.found 0 64)

/-- The bytes that are read to `phdr`, an array of ten. -/
def table (h : Host) : List (BitVec 8) := h.found h.ehdr.phoff.toNat 560

/-- The program headers that the loop goes through. -/
def phdrs (h : Host) : List Phdr :=
  (List.range h.ehdr.phnum.toNat).map fun header ↦ .ofBytes (h.table.drop (56 * header))

end Host

variable {m : Mem}

/-- One turn of the loop. -/
def loadHeader (h : Host) (p : Phdr) (s : Logged m) : Except BootFailure (Logged m) :=
  if p.type = ptLoad then
    if size < p.vaddr + p.memsz then .error (.exit "Not enough 'physical' ram")
    else if !h.clears p.vaddr p.memsz then .error .fault
    else if !Host.seeks p.offset then .error .assertion
    else
      let got := h.read p.offset.toNat p.vaddr p.filesz
      if got.2 = p.filesz then
        .ok ((s.copy p.vaddr (List.replicate p.memsz.toNat 0)).copy p.vaddr got.1)
      else .error .assertion
  else if p.type = ptGnuStack then .ok s
  else .error (.exit ("Unexpected ELF header " ++ toString p.type.toNat))

/-- The loop over the program headers. -/
def loadHeaders (h : Host) : List Phdr → Logged m → Except BootFailure (Logged m)
  | [], s => .ok s
  | p :: ps, s => (loadHeader h p s).bind (loadHeaders h ps)

/-- `load_elf`: the memory, and `e_entry`. -/
def loadElf (h : Host) (m : Mem) : Except BootFailure (Logged m × Word) :=
  if (h.found 0 64).length ≠ 64 then .error .assertion
  else if 10 ≤ h.ehdr.phnum.toNat then .error .assertion
  else if !Host.seeks h.ehdr.phoff then .error .assertion
  else if h.table.length ≠ 560 then .error .assertion
  else (loadHeaders h h.phdrs (.start m)).map fun s ↦ (s, h.ehdr.entry)

/-! ## The constructor -/

/-- A string of C, up to its zero. -/
structure CString where
  chars : List (BitVec 8)
  zeroFree : 0 ∉ chars

/-- What `strcpy` copies. -/
def CString.bytes (a : CString) : List (BitVec 8) := a.chars ++ [0]

/-- `argv`, whose length `argc` is an `int`. -/
structure Arguments where
  argv : List CString
  argc_lt : argv.length < 2 ^ 31

/-- `stack_base`. -/
def stackBase : Word := size - 1024

/-- The address of `newargv[n]`. -/
def newargv (n : ℕ) : Word := stackBase + BitVec.ofNat 64 (8 * n)

/-- The loop over the arguments from the `n`-th on: `p`, and the memory. What `strlen(p)` finds is
what `strcpy` has just put there (`isLeast_strlen`). -/
def copyArguments : ℕ → List CString → Word → Logged m → Word × Logged m
  | _, [], p, s => (p, s)
  | n, a :: argv, p, s =>
    copyArguments (n + 1) argv (p + BitVec.ofNat 64 (a.chars.length + 1))
      ((s.copy p a.bytes).copy (newargv (n + 1)) (WordBytes.bytesUp 8 p))

/-- The part of the constructor that follows `mem_init`. -/
def initStack (args : Arguments) (m : Mem) : Logged m :=
  let argc := args.argv.length
  let p := stackBase + BitVec.ofNat 64 (8 * argc) + 8 + 8
  let r := copyArguments 0 args.argv p (.start m)
  (r.2.copy r.1 [0]).copy stackBase (WordBytes.bytesUp 8 (BitVec.ofNat 64 argc))

/-- The first zero of a string that has been copied is the one at its end. -/
theorem isLeast_strlen (a : CString) (p : Word) (ha : a.chars.length < 2 ^ 64) :
    IsLeast {k | Copy.run ⟨p, a.bytes⟩ m (p + BitVec.ofNat 64 k) = 0} a.chars.length := by
  have hbyte : ∀ k ≤ a.chars.length,
      a.bytes[k]? = some (Copy.run ⟨p, a.bytes⟩ m (p + BitVec.ofNat 64 k)) := by
    intro k hk
    refine Copy.getElem?_run (c := ⟨p, a.bytes⟩) ?_ (by omega)
    rw [CString.bytes, List.length_append, List.length_singleton]
    omega
  constructor
  · have hlast := hbyte a.chars.length le_rfl
    rw [CString.bytes, List.getElem?_concat_length] at hlast
    exact (Option.some.inj hlast).symm
  · intro k hk
    by_contra hlt
    have hchar := hbyte k (by omega)
    rw [hk, CString.bytes, List.getElem?_append_left (by omega)] at hchar
    exact a.zeroFree (List.mem_of_getElem? hchar)

end Cse502
