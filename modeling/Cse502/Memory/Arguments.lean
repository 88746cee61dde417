import Cse502.Model.Boot

/-!
# The stack a guest program starts with

The strings follow one another from behind the pointer table on, each at the `span` of those before
it, and the last byte that is written is the one behind them all. `span_take_le` and its like are
all that is needed to tell the strings apart, and `copies` lists the writes of the loop in order.

Nothing compares the strings with the space there is. `initStack_stackFormed_iff` gives the room
they need: the stack is laid out as it should be exactly if the last byte is in guest memory. What
the memory held before does not matter.
-/

namespace Cse502

open Memory (size)

variable {m : Mem} {argv : List CString} {a : CString} {n k : ℕ} {p x : Word}

/-! ## Where the strings go -/

/-- The bytes that strings take, with their zeros. -/
def span (argv : List CString) : ℕ := (argv.map fun a ↦ a.bytes.length).sum

theorem length_bytes (a : CString) : a.bytes.length = a.chars.length + 1 := by
  rw [CString.bytes, List.length_append, List.length_singleton]

@[simp] theorem span_nil : span [] = 0 := rfl

@[simp] theorem span_cons (a : CString) (argv : List CString) :
    span (a :: argv) = a.bytes.length + span argv := by
  rw [span, List.map_cons, List.sum_cons, span]

theorem span_append (argv argv' : List CString) :
    span (argv ++ argv') = span argv + span argv' := by
  rw [span, List.map_append, List.sum_append, span, span]

theorem span_take_le (argv : List CString) (k : ℕ) : span (argv.take k) ≤ span argv := by
  calc span (argv.take k) ≤ span (argv.take k) + span (argv.drop k) := Nat.le_add_right _ _
    _ = span argv := by rw [← span_append, List.take_append_drop]

theorem span_take_mono {j : ℕ} (hkj : k ≤ j) : span (argv.take k) ≤ span (argv.take j) := by
  have hle := span_take_le (argv.take j) k
  rwa [List.take_take, Nat.min_eq_left hkj] at hle

theorem span_take_succ (ha : argv[k]? = some a) :
    span (argv.take (k + 1)) = span (argv.take k) + a.bytes.length := by
  rw [List.take_add_one, ha, Option.toList_some, span_append, span_cons, span_nil, Nat.add_zero]

/-! ## The writes of the loop -/

/-- The copies that the loop makes, in order. -/
def copies : ℕ → List CString → Word → List (Copy 64 (BitVec 8))
  | _, [], _ => []
  | n, a :: argv, p =>
    ⟨p, a.bytes⟩ :: ⟨newargv (n + 1), WordBytes.bytesUp 8 p⟩ ::
      copies (n + 1) argv (p + BitVec.ofNat 64 a.bytes.length)

/-- Behind one more string. -/
theorem add_span_cons (p : Word) (a : CString) (argv : List CString) :
    p + BitVec.ofNat 64 a.bytes.length + BitVec.ofNat 64 (span argv) =
      p + BitVec.ofNat 64 (span (a :: argv)) := by
  rw [BitVec.add_assoc, ← BitVec.ofNat_add, span_cons]

theorem copyArguments_eq (s : Logged m) :
    (copyArguments n argv p s).1 = p + BitVec.ofNat 64 (span argv) ∧
      (copyArguments n argv p s).2.written = s.written ++ copies n argv p := by
  induction argv generalizing n p s with
  | nil =>
    rw [copyArguments, copies, span_nil, BitVec.add_zero, List.append_nil]
    exact ⟨rfl, rfl⟩
  | cons a argv ih =>
    obtain ⟨hp, hwritten⟩ := ih (n := n + 1) (p := p + BitVec.ofNat 64 a.bytes.length)
      ((s.copy p a.bytes).copy (newargv (n + 1)) (WordBytes.bytesUp 8 p))
    rw [copyArguments, ← length_bytes, hp, hwritten, copies, add_span_cons, Logged.written_copy,
      Logged.written_copy, List.append_assoc, List.append_assoc]
    exact ⟨rfl, rfl⟩

theorem copies_append (argv argv' : List CString) :
    copies n (argv ++ argv') p =
      copies n argv p ++ copies (n + argv.length) argv' (p + BitVec.ofNat 64 (span argv)) := by
  induction argv generalizing n p with
  | nil =>
    rw [span_nil, BitVec.add_zero]
    rfl
  | cons a argv ih =>
    rw [List.cons_append, copies, copies, ih, add_span_cons, List.length_cons,
      Nat.add_right_comm, Nat.add_assoc n argv.length 1]
    rfl

/-- A write of the loop is a string, in the space for strings, or a word of the table. -/
theorem mem_copies {c : Copy 64 (BitVec 8)} (hc : c ∈ copies n argv p)
    (htop : p.toNat + span argv < 2 ^ 64) :
    (p.toNat ≤ c.dst.toNat ∧ c.dst.toNat + c.data.length ≤ p.toNat + span argv) ∨
      ∃ j, n < j ∧ j ≤ n + argv.length ∧ c.dst = newargv j ∧ c.data.length = 8 := by
  induction argv generalizing n p with
  | nil => exact absurd hc List.not_mem_nil
  | cons a argv ih =>
    rw [span_cons] at htop
    rw [copies, List.mem_cons, List.mem_cons] at hc
    rcases hc with rfl | rfl | hc
    · left
      rw [span_cons]
      exact ⟨le_rfl, Nat.add_le_add_left (Nat.le_add_right _ _) _⟩
    · right
      refine ⟨n + 1, n.lt_succ_self, ?_, rfl, rfl⟩
      rw [List.length_cons]
      omega
    · have hp : (p + BitVec.ofNat 64 a.bytes.length).toNat = p.toNat + a.bytes.length :=
        Copy.toNat_add (by omega)
      rcases ih hc (by omega) with ⟨hle, hend⟩ | ⟨j, hnj, hj, hdst, hlen⟩
      · left
        rw [span_cons]
        exact ⟨by omega, by omega⟩
      · right
        rw [List.length_cons]
        exact ⟨j, by omega, by omega, hdst, hlen⟩

/-- Writes that are all inside leave room for one more byte behind the strings, if that is. -/
theorem le_of_inside (h : ∀ c ∈ copies n argv p, c.Inside size)
    (hlast : Copy.Inside ⟨p + BitVec.ofNat 64 (span argv), [(0 : BitVec 8)]⟩ size) :
    p.toNat + span argv + 1 ≤ size.toNat := by
  induction argv generalizing n p with
  | nil =>
    rw [span_nil, BitVec.add_zero, Copy.inside_iff] at hlast
    rw [span_nil]
    exact hlast.resolve_left Nat.one_ne_zero
  | cons a argv ih =>
    have hlen := length_bytes a
    rw [copies, List.forall_mem_cons, List.forall_mem_cons, Copy.inside_iff] at h
    obtain ⟨hstring, -, htail⟩ := h
    have hle : p.toNat + a.bytes.length ≤ size.toNat := by
      rcases hstring with hzero | hle
      · rw [hlen] at hzero
        contradiction
      · exact hle
    have hp : (p + BitVec.ofNat 64 a.bytes.length).toNat = p.toNat + a.bytes.length :=
      Copy.toNat_add (lt_of_le_of_lt hle size.isLt)
    have hrest := ih htail (by rwa [add_span_cons])
    rw [span_cons]
    omega

/-! ## The stack -/

namespace Arguments

variable {args : Arguments}

/-- Where the first string goes, behind the table. -/
def first (args : Arguments) : Word :=
  stackBase + BitVec.ofNat 64 (8 * args.argv.length) + 8 + 8

/-- Where the `k`-th string goes. -/
def string (args : Arguments) (k : ℕ) : Word :=
  args.first + BitVec.ofNat 64 (span (args.argv.take k))

/-- The two writes after the loop. -/
def lastCopies (args : Arguments) : List (Copy 64 (BitVec 8)) :=
  [⟨args.first + BitVec.ofNat 64 (span args.argv), [0]⟩,
    ⟨stackBase, WordBytes.bytesUp 8 (BitVec.ofNat 64 args.argv.length)⟩]

/-- The table, the strings and one more byte take no more than the 1024 bytes from `stack_base`
on. -/
def Fits (args : Arguments) : Prop := 8 * args.argv.length + span args.argv + 17 ≤ 1024

instance : DecidablePred Fits := fun _ ↦ inferInstanceAs (Decidable (_ ≤ _))

theorem toNat_stackBase : stackBase.toNat + 1024 = size.toNat := rfl

theorem toNat_newargv (hn : n < 2 ^ 32) : (newargv n).toNat = stackBase.toNat + 8 * n := by
  have hbase : stackBase.toNat = 0x3fffc00 := rfl
  exact Copy.toNat_add (by omega)

theorem toNat_first (args : Arguments) :
    args.first.toNat = stackBase.toNat + 8 * args.argv.length + 16 := by
  have hargc := args.argc_lt
  have hsum : args.first = newargv (args.argv.length + 2) := by
    rw [first, newargv, BitVec.add_assoc, BitVec.add_assoc, Nat.mul_add, BitVec.ofNat_add]
    rfl
  rw [hsum, toNat_newargv (n := args.argv.length + 2) (by omega), Nat.mul_add, Nat.add_assoc]

theorem written_initStack (args : Arguments) (m : Mem) :
    (initStack args m).written = copies 0 args.argv args.first ++ args.lastCopies := by
  obtain ⟨hp, hwritten⟩ : (copyArguments 0 args.argv args.first (Logged.start m)).1 = _ ∧ _ :=
    copyArguments_eq _
  rw [initStack, Logged.written_copy, Logged.written_copy, ← first, hp, hwritten,
    Logged.written_start, List.nil_append, List.append_assoc, List.singleton_append, lastCopies]

/-- The byte behind the strings is in guest memory. -/
theorem first_add_span_lt (hfits : args.Fits) :
    args.first.toNat + span args.argv < size.toNat := by
  have hbase := toNat_stackBase
  rw [Fits] at hfits
  rw [toNat_first]
  omega

/-- **The room there has to be.** -/
theorem inside_iff_fits (args : Arguments) (m : Mem) :
    (∀ c ∈ (initStack args m).written, c.Inside size) ↔ args.Fits := by
  have hfirst := args.toNat_first
  have hargc := args.argc_lt
  have hbase := toNat_stackBase
  rw [written_initStack, lastCopies, List.forall_mem_append, List.forall_mem_cons,
    List.forall_mem_singleton]
  constructor
  · rintro ⟨hloop, hlast, -⟩
    have hle := le_of_inside hloop hlast
    rw [Fits]
    omega
  · intro hfits
    rw [Fits] at hfits
    refine ⟨?_, ?_, ?_⟩
    · intro c hc
      rw [Copy.inside_iff]
      right
      rcases mem_copies hc (by omega) with ⟨hle, hend⟩ | ⟨j, hj, hjlen, hdst, hlen⟩
      · omega
      · rw [hdst, hlen, toNat_newargv (by omega)]
        omega
    · rw [Copy.inside_iff]
      right
      rw [Copy.toNat_add (by omega), List.length_singleton]
      omega
    · rw [Copy.inside_iff]
      right
      rw [WordBytes.length_bytesUp]
      exact Nat.le_of_lt (by omega : stackBase.toNat + 8 < size.toNat)

/-! ### What the writes leave alone -/

/-- The writes from the `n`-th argument on leave alone what lies below their strings, but for the
words of the table that are still to come and the first one. -/
theorem not_covers_later (hfits : args.Fits) (hn : n + argv.length = args.argv.length)
    (hp : p.toNat + span argv = args.first.toNat + span args.argv) (hxp : x.toNat < p.toNat)
    (hx : stackBase.toNat + 8 ≤ x.toNat)
    (htable : ∀ j, n < j → j ≤ args.argv.length →
      x.toNat < stackBase.toNat + 8 * j ∨ stackBase.toNat + 8 * j + 8 ≤ x.toNat) :
    ∀ c ∈ copies n argv p ++ args.lastCopies, ¬c.Covers x := by
  have hfirst := args.toNat_first
  have hargc := args.argc_lt
  have htop := first_add_span_lt hfits
  rw [lastCopies, List.forall_mem_append, List.forall_mem_cons, List.forall_mem_singleton]
  refine ⟨?_, ?_, ?_⟩
  · intro c hc
    rcases mem_copies hc (by omega) with ⟨hle, hend⟩ | ⟨j, hj, hjlen, hdst, hlen⟩
    · exact Copy.not_covers_of_lt (by omega) (by omega)
    · have hword : c.dst.toNat = stackBase.toNat + 8 * j := by
        rw [hdst, toNat_newargv (by omega)]
      rcases htable j hj (by omega) with hlt | hle
      · exact Copy.not_covers_of_lt (by omega) (by omega)
      · exact Copy.not_covers_of_le (by omega)
  · have hdst : (args.first + BitVec.ofNat 64 (span args.argv)).toNat =
        args.first.toNat + span args.argv := Copy.toNat_add (by omega)
    refine Copy.not_covers_of_lt ?_ ?_
    · dsimp only
      omega
    · rw [List.length_singleton]
      omega
  · refine Copy.not_covers_of_le ?_
    rw [WordBytes.length_bytesUp]
    exact hx

/-- The writes before, for and after one argument. -/
theorem written_split (args : Arguments) (m : Mem) (ha : args.argv[k]? = some a) :
    (initStack args m).written = copies 0 (args.argv.take k) args.first ++
      ⟨args.string k, a.bytes⟩ :: ⟨newargv (k + 1), WordBytes.bytesUp 8 (args.string k)⟩ ::
        (copies (k + 1) (args.argv.drop (k + 1))
          (args.string k + BitVec.ofNat 64 a.bytes.length) ++ args.lastCopies) := by
  obtain ⟨hk, hget⟩ := List.getElem?_eq_some_iff.mp ha
  have hargv : args.argv = args.argv.take k ++ a :: args.argv.drop (k + 1) := by
    rw [← hget, List.getElem_cons_drop, List.take_append_drop]
  have hlen : (args.argv.take k).length = k := by rw [List.length_take, Nat.min_eq_left hk.le]
  have hcopies : copies 0 args.argv args.first = copies 0 (args.argv.take k) args.first ++
      copies k (a :: args.argv.drop (k + 1)) (args.string k) := by
    conv_lhs => rw [hargv, copies_append, hlen, Nat.zero_add, ← string]
  rw [written_initStack, hcopies, List.append_assoc, copies]
  rfl

theorem toNat_string (hfits : args.Fits) (k : ℕ) :
    (args.string k).toNat = args.first.toNat + span (args.argv.take k) := by
  have hfirst := args.toNat_first
  have hbase := toNat_stackBase
  have hle := span_take_le args.argv k
  rw [Fits] at hfits
  exact Copy.toNat_add (by omega)

/-- A string ends before the next one starts. -/
theorem string_add_le (hfits : args.Fits) (ha : args.argv[k]? = some a) {j : ℕ} (hkj : k < j) :
    (args.string k).toNat + a.bytes.length ≤ (args.string j).toNat := by
  have hmono : span (args.argv.take (k + 1)) ≤ span (args.argv.take j) := span_take_mono hkj
  rw [span_take_succ ha] at hmono
  rw [toNat_string hfits, toNat_string hfits]
  omega

theorem string_add_lt (hfits : args.Fits) (ha : args.argv[k]? = some a) :
    (args.string k).toNat + a.bytes.length < size.toNat := by
  have htop := first_add_span_lt hfits
  have hle := span_take_le args.argv (k + 1)
  rw [span_take_succ ha] at hle
  rw [toNat_string hfits]
  omega

/-- The writes behind a string leave it alone, and the word that points to it. -/
theorem not_covers_behind (hfits : args.Fits) (ha : args.argv[k]? = some a)
    (hxp : x.toNat < (args.string k).toNat + a.bytes.length) (hx : stackBase.toNat + 8 ≤ x.toNat)
    (htable : x.toNat < stackBase.toNat + 8 * (k + 2) ∨ args.first.toNat ≤ x.toNat) :
    ∀ c ∈ copies (k + 1) (args.argv.drop (k + 1))
      (args.string k + BitVec.ofNat 64 a.bytes.length) ++ args.lastCopies, ¬c.Covers x := by
  have hfirst := args.toNat_first
  have hlt := string_add_lt hfits ha
  have hp : (args.string k + BitVec.ofNat 64 a.bytes.length).toNat =
      (args.string k).toNat + a.bytes.length := Copy.toNat_add (by omega)
  have hk := (List.getElem?_eq_some_iff.mp ha).1
  have hspan : span (args.argv.take (k + 1)) + span (args.argv.drop (k + 1)) = span args.argv := by
    rw [← span_append, List.take_append_drop]
  rw [span_take_succ ha] at hspan
  refine not_covers_later hfits ?_ ?_ (by omega) hx ?_
  · rw [List.length_drop]
    omega
  · rw [hp, toNat_string hfits]
    omega
  · intro j hj hjlen
    omega

/-- The string is there. -/
theorem getElem?_string (hfits : args.Fits) (ha : args.argv[k]? = some a) {i : ℕ}
    (hi : i < a.bytes.length) :
    a.bytes[i]? = some ((initStack args m).mem (args.string k + BitVec.ofNat 64 i)) := by
  have hfirst := args.toNat_first
  have hargc := args.argc_lt
  have hk := (List.getElem?_eq_some_iff.mp ha).1
  have hlt := string_add_lt hfits ha
  have hstring := toNat_string hfits k
  have hx : (args.string k + BitVec.ofNat 64 i).toNat = (args.string k).toNat + i :=
    Copy.toNat_add (by omega)
  have hword : ¬Copy.Covers ⟨newargv (k + 1), WordBytes.bytesUp 8 (args.string k)⟩
      (args.string k + BitVec.ofNat 64 i) := by
    refine Copy.not_covers_of_le ?_
    rw [WordBytes.length_bytesUp, toNat_newargv (by omega), hx]
    omega
  have hbehind := not_covers_behind (x := args.string k + BitVec.ofNat 64 i) hfits ha (by omega)
    (by omega) (Or.inr (by omega))
  rw [(initStack args m).mem_eq, written_split args m ha]
  exact Copy.getElem?_runAll (c := ⟨args.string k, a.bytes⟩) m _ hi (by omega)
    (List.forall_mem_cons.mpr ⟨hword, hbehind⟩)

/-- And the table has a word that points to it. -/
theorem load_newargv (hfits : args.Fits) (ha : args.argv[k]? = some a) :
    ByteMemory.load (initStack args m).mem (newargv (k + 1)) = args.string k := by
  have hfirst := args.toNat_first
  have hargc := args.argc_lt
  have hk := (List.getElem?_eq_some_iff.mp ha).1
  have hbase := toNat_stackBase
  have hstring := toNat_string hfits k
  have hword : (newargv (k + 1)).toNat = stackBase.toNat + 8 * (k + 1) := toNat_newargv (by omega)
  refine ByteMemory.load_eq_of_bytes fun i hi ↦ ?_
  have hx : (newargv (k + 1) + i).toNat = (newargv (k + 1)).toNat + i.toNat := by
    rw [BitVec.toNat_add, Nat.mod_eq_of_lt (by omega)]
  have hbehind := not_covers_behind (x := newargv (k + 1) + i) hfits ha (by omega) (by omega)
    (Or.inl (by omega))
  have hbyte := Copy.getElem?_runAll
    (c := ⟨newargv (k + 1), WordBytes.bytesUp 8 (args.string k)⟩) (k := i.toNat) m
    (copies 0 (args.argv.take k) args.first ++ [⟨args.string k, a.bytes⟩])
    (by rwa [WordBytes.length_bytesUp]) i.isLt (by rwa [BitVec.ofNat_toNat, BitVec.setWidth_eq])
  rw [List.append_assoc, List.singleton_append, ← written_split args m ha,
    ← (initStack args m).mem_eq, WordBytes.getElem?_bytesUp hi, BitVec.ofNat_toNat,
    BitVec.setWidth_eq] at hbyte
  exact (Option.some.inj hbyte).symm

/-- The word before them is `argc`. -/
theorem load_stackBase (args : Arguments) (m : Mem) :
    ByteMemory.load (initStack args m).mem stackBase = BitVec.ofNat 64 args.argv.length := by
  refine ByteMemory.load_eq_of_bytes fun i hi ↦ ?_
  have hbyte := Copy.getElem?_runAll (k := i.toNat) (m := m)
    (c := ⟨stackBase, WordBytes.bytesUp 8 (BitVec.ofNat 64 args.argv.length)⟩)
    (copies 0 args.argv args.first ++ [⟨args.first + BitVec.ofNat 64 (span args.argv), [0]⟩])
    (by rwa [WordBytes.length_bytesUp]) i.isLt (fun c hc ↦ absurd hc List.not_mem_nil)
  rw [List.append_assoc, List.singleton_append, ← lastCopies, ← written_initStack args m,
    ← (initStack args m).mem_eq, WordBytes.getElem?_bytesUp hi, BitVec.ofNat_toNat,
    BitVec.setWidth_eq] at hbyte
  exact (Option.some.inj hbyte).symm

/-- The word behind them is as it was. -/
theorem mem_terminator (hfits : args.Fits)
    (hlow : stackBase.toNat + 8 * args.argv.length + 8 ≤ x.toNat)
    (hhigh : x.toNat < stackBase.toNat + 8 * args.argv.length + 16) :
    (initStack args m).mem x = m x := by
  have hfirst := args.toNat_first
  rw [(initStack args m).mem_eq, written_initStack]
  refine Copy.runAll_of_not_covers (not_covers_later hfits (Nat.zero_add _) rfl ?_ ?_ ?_)
  · omega
  · omega
  · intro j hj hjlen
    omega

end Arguments

/-! ## Laying it out as it should be -/

/-- The `k`-th word behind `argc`. -/
def address (s : Logged m) (k : ℕ) : Word := ByteMemory.load s.mem (newargv (k + 1))

/-- What a guest program finds at `stack_base`, and where the constructor has written. -/
structure StackFormed (args : Arguments) (s : Logged m) : Prop where
  /-- It has written to guest memory only. -/
  inside : ∀ c ∈ s.written, c.Inside size
  argc : ByteMemory.load s.mem stackBase = BitVec.ofNat 64 args.argv.length
  /-- The word that ends the table is as it was. -/
  terminator : ∀ j < 8, s.mem (newargv (args.argv.length + 1) + BitVec.ofNat 64 j) =
    m (newargv (args.argv.length + 1) + BitVec.ofNat 64 j)
  /-- Each other word is the guest address of an argument, with its zero. -/
  strings : ∀ k a, args.argv[k]? = some a → address s k < size ∧
    ∀ i < a.bytes.length, a.bytes[i]? = some (s.mem (address s k + BitVec.ofNat 64 i))
  /-- No argument lies over the table or the word that ends it. -/
  table : ∀ k a, args.argv[k]? = some a → ∀ i < a.bytes.length,
    ∀ j < 8 * (args.argv.length + 2),
      address s k + BitVec.ofNat 64 i ≠ stackBase + BitVec.ofNat 64 j
  /-- And none over another one. -/
  apart : ∀ k a j b, args.argv[k]? = some a → args.argv[j]? = some b → k ≠ j →
    ∀ i < a.bytes.length, ∀ i' < b.bytes.length,
      address s k + BitVec.ofNat 64 i ≠ address s j + BitVec.ofNat 64 i'

namespace Arguments

variable {args : Arguments}

theorem toNat_string_add (hfits : args.Fits) (ha : args.argv[k]? = some a) {i : ℕ}
    (hi : i < a.bytes.length) :
    (args.string k + BitVec.ofNat 64 i).toNat = (args.string k).toNat + i := by
  have hlt := string_add_lt hfits ha
  exact Copy.toNat_add (by omega)

theorem string_ne_table (hfits : args.Fits) (ha : args.argv[k]? = some a) {i j : ℕ}
    (hi : i < a.bytes.length) (hj : j < 8 * (args.argv.length + 2)) :
    args.string k + BitVec.ofNat 64 i ≠ stackBase + BitVec.ofNat 64 j := by
  intro heq
  have hargc := args.argc_lt
  have hbase : stackBase.toNat = 0x3fffc00 := rfl
  have hnat := congrArg BitVec.toNat heq
  rw [toNat_string_add hfits ha hi, toNat_string hfits, args.toNat_first,
    Copy.toNat_add (by omega)] at hnat
  omega

theorem string_ne_of_lt (hfits : args.Fits) {b : CString} {j : ℕ} (ha : args.argv[k]? = some a)
    (hb : args.argv[j]? = some b) (hkj : k < j) {i i' : ℕ} (hi : i < a.bytes.length)
    (hi' : i' < b.bytes.length) :
    args.string k + BitVec.ofNat 64 i ≠ args.string j + BitVec.ofNat 64 i' := by
  intro heq
  have hle := string_add_le hfits ha hkj
  have hnat := congrArg BitVec.toNat heq
  rw [toNat_string_add hfits ha hi, toNat_string_add hfits hb hi'] at hnat
  omega

theorem stackFormed_of_fits (hfits : args.Fits) : StackFormed args (initStack args m) := by
  have hfirst := args.toNat_first
  have hargc := args.argc_lt
  have hbase := toNat_stackBase
  have haddress : ∀ k a, args.argv[k]? = some a → address (initStack args m) k = args.string k :=
    fun k a ha ↦ load_newargv hfits ha
  refine ⟨(inside_iff_fits args m).mpr hfits, load_stackBase args m, ?_, ?_, ?_, ?_⟩
  · intro j hj
    have hword : (newargv (args.argv.length + 1)).toNat =
      stackBase.toNat + 8 * (args.argv.length + 1) := toNat_newargv (by omega)
    have hx : (newargv (args.argv.length + 1) + BitVec.ofNat 64 j).toNat =
      (newargv (args.argv.length + 1)).toNat + j := Copy.toNat_add (by omega)
    exact mem_terminator hfits (by omega) (by omega)
  · intro k a ha
    have hlt := string_add_lt hfits ha
    rw [haddress k a ha, BitVec.lt_def]
    exact ⟨by omega, fun i hi ↦ getElem?_string hfits ha hi⟩
  · intro k a ha i hi j hj
    rw [haddress k a ha]
    exact string_ne_table hfits ha hi hj
  · intro k a j b ha hb hkj i hi i' hi'
    rw [haddress k a ha, haddress j b hb]
    rcases Nat.lt_or_gt_of_ne hkj with hlt | hlt
    · exact string_ne_of_lt hfits ha hb hlt hi hi'
    · exact (string_ne_of_lt hfits hb ha hlt hi' hi).symm

/-- **The arguments that are laid out as they should be.** -/
theorem initStack_stackFormed_iff (args : Arguments) (m : Mem) :
    StackFormed args (initStack args m) ↔ args.Fits :=
  ⟨fun h ↦ (inside_iff_fits args m).mp h.inside, stackFormed_of_fits⟩

/-- One argument of a thousand characters. -/
def long : Arguments where
  argv := [⟨List.replicate 1000 0x61, fun h ↦ absurd (List.eq_of_mem_replicate h) (by decide)⟩]
  argc_lt := by decide

/-- Its last bytes are behind guest memory. -/
theorem not_stackFormed_long : ¬StackFormed long (initStack long fun _ ↦ 0) := by
  intro h
  have hfits := (inside_iff_fits long fun _ ↦ 0).mp h.inside
  revert hfits
  decide +kernel

end Arguments

end Cse502
