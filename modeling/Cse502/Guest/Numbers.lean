import Cse502.Guest.Strings
import Cse502.Memory.Arguments

/-!
# The guest reads its numbers

`atol` counts downwards, so that the smallest number does not overflow on the way. It computes every
number that a `long` can hold, from any text it may stand in, and no other (`atol_eq`). With
`PrintVal` it makes a round trip through the stack that the constructor of `Memory` lays out.
-/

namespace Cse502.Libc

variable {mem : Mem} {s : Word} {a : CString} {c : BitVec 8} {cs ds sp : List (BitVec 8)} {fuel : ℕ}

/-! ## Characters -/

theorem StringAt.llreadchar_eq (h : StringAt mem s a) {k : ℕ} (hk : k ≤ a.chars.length) :
    llreadchar mem (s + BitVec.ofNat 64 k) =
      .ok ((mem (s + BitVec.ofNat 64 k)).setWidth 64) := by
  have hlow := h.low
  have htop := h.high
  have hsize : Memory.size.toNat = 0x4000000 := rfl
  rw [StringAt.length_bytes] at htop
  have hc : (s + BitVec.ofNat 64 k).toNat = s.toNat + k := Copy.toNat_add (by omega)
  have hp := toNat_and_not_seven (s + BitVec.ofNat 64 k)
  have hplace : (s + BitVec.ofNat 64 k &&& ~~~7) + BitVec.ofNat 64 ((s.toNat + k) % 8) =
      s + BitVec.ofNat 64 k := h.add_eq hk (by omega)
  rw [llreadchar, read_of_aligned (by omega) (by omega) (by omega), ok_map,
    toNat_and_seven, byte_shift_and, hc, Memory.byte_load _ _ (Nat.mod_lt _ (by decide)), hplace]

/-- The characters from an address on. -/
def CharsAt (mem : Mem) : Word → List (BitVec 8) → Prop
  | _, [] => True
  | s, c :: cs => llreadchar mem s = .ok (c.setWidth 64) ∧ CharsAt mem (s + 1) cs

theorem StringAt.charsAt_drop (h : StringAt mem s a) (pre suf : List (BitVec 8))
    (hbytes : a.bytes = pre ++ suf) : CharsAt mem (s + BitVec.ofNat 64 pre.length) suf := by
  induction suf generalizing pre with
  | nil => trivial
  | cons c suf ih =>
    have hlength := congrArg List.length hbytes
    rw [StringAt.length_bytes, List.length_append, List.length_cons] at hlength
    have hbyte := h.bytes pre.length (by rw [StringAt.length_bytes]; omega)
    rw [hbytes, List.getElem?_append_right le_rfl, Nat.sub_self, List.getElem?_cons_zero] at hbyte
    refine ⟨?_, ?_⟩
    · rw [h.llreadchar_eq (by omega), ← Option.some.inj hbyte]
    · have hnext := ih (pre ++ [c]) (by rw [hbytes, List.append_assoc, List.singleton_append])
      rw [List.length_append, List.length_singleton, BitVec.ofNat_add, ← BitVec.add_assoc] at hnext
      exact hnext

theorem StringAt.charsAt (h : StringAt mem s a) : CharsAt mem s a.bytes := by
  have hdrop := h.charsAt_drop [] a.bytes rfl
  rwa [List.length_nil, BitVec.add_zero] at hdrop

theorem isdigit_iff (c : BitVec 8) :
    isdigit (c.setWidth 64) = true ↔ 0x30 ≤ c.toNat ∧ c.toNat < 0x3a := by
  have hc := c.isLt
  rw [isdigit, BitVec.ult_iff_lt, BitVec.lt_def, BitVec.toNat_sub, BitVec.toNat_setWidth,
    Nat.mod_eq_of_lt (by omega : c.toNat < 2 ^ 64)]
  simp only [BitVec.ofNat_eq_ofNat, BitVec.toNat_ofNat]
  omega

theorem toInt_setWidth (c : BitVec 8) : (c.setWidth 64).toInt = c.toNat := by
  have hc := c.isLt
  rw [BitVec.toInt_eq_toNat_of_lt] <;> rw [BitVec.toNat_setWidth, Nat.mod_eq_of_lt] <;> omega

/-- A digit is neither a space nor a sign. -/
theorem not_space_of_digit (hc : isdigit (c.setWidth 64) = true) :
    isspace (c.setWidth 64) = false ∧ c.setWidth 64 ≠ (0x2d : Word) ∧
      c.setWidth 64 ≠ (0x2b : Word) := by
  revert c
  decide

/-! ## Numerals -/

/-- The sign of a number. -/
inductive Sign
  | absent | plus | minus
  deriving DecidableEq

/-- Its text. -/
def Sign.text : Sign → List (BitVec 8)
  | .absent => []
  | .plus => [0x2b]
  | .minus => [0x2d]

/-- What it does. -/
def Sign.apply : Sign → ℤ → ℤ
  | .minus, z => -z
  | _, z => z

/-- A text with a number in it: what is behind the digits does not begin with one. -/
structure Numeral where
  spaces : List (BitVec 8)
  sign : Sign
  digits : List (BitVec 8)
  rest : List (BitVec 8)
  isspace_spaces : ∀ c ∈ spaces, isspace (c.setWidth 64) = true
  isdigit_digits : ∀ c ∈ digits, isdigit (c.setWidth 64) = true
  digits_ne_nil : digits ≠ []
  rest_ends : ∀ c ∈ rest.head?, isdigit (c.setWidth 64) = false

/-- The number that some digits make behind others. -/
def decimal (v : ℕ) (ds : List (BitVec 8)) : ℕ := ds.foldl (fun v d ↦ 10 * v + (d.toNat - 0x30)) v

theorem decimal_append_singleton (v : ℕ) (ds : List (BitVec 8)) (d : BitVec 8) :
    decimal v (ds ++ [d]) = 10 * decimal v ds + (d.toNat - 0x30) := by
  rw [decimal, List.foldl_append, List.foldl_cons, List.foldl_nil, ← decimal]

theorem le_decimal (v : ℕ) (ds : List (BitVec 8)) : v ≤ decimal v ds := by
  induction ds generalizing v with
  | nil => exact le_rfl
  | cons d ds ih => exact le_trans (by omega) (ih (10 * v + (d.toNat - 0x30)))

namespace Numeral

/-- The text. -/
def text (n : Numeral) : List (BitVec 8) := n.spaces ++ (n.sign.text ++ (n.digits ++ n.rest))

/-- The number. -/
def value (n : Numeral) : ℤ := n.sign.apply (decimal 0 n.digits)

end Numeral

/-! ## The loops -/

theorem long_eq_ok {z : ℤ} (h : -2 ^ 63 ≤ z ∧ z < 2 ^ 63) : long z = .ok z := if_pos h

theorem long_eq_error {z : ℤ} (h : ¬(-2 ^ 63 ≤ z ∧ z < 2 ^ 63)) :
    long z = .error .overflow := if_neg h

theorem skipSpaces_eq (hsp : ∀ c ∈ sp, isspace (c.setWidth 64) = true)
    (hc : isspace (c.setWidth 64) = false) (h : CharsAt mem s (sp ++ c :: cs))
    (hfuel : sp.length < fuel) :
    ∃ s', skipSpaces mem fuel s = .ok s' ∧ CharsAt mem s' (c :: cs) := by
  induction sp generalizing s fuel with
  | nil =>
    obtain ⟨fuel, rfl⟩ := Nat.exists_eq_succ_of_ne_zero hfuel.ne'
    refine ⟨s, ?_, h⟩
    rw [skipSpaces, h.1, ok_bind, hc, if_neg Bool.false_ne_true]
  | cons b sp ih =>
    obtain ⟨fuel, rfl⟩ := Nat.exists_eq_succ_of_ne_zero (Nat.ne_of_gt (Nat.zero_lt_of_lt hfuel))
    obtain ⟨hb, hsp⟩ := List.forall_mem_cons.mp hsp
    rw [skipSpaces, h.1, ok_bind, hb, if_pos rfl]
    exact ih hsp h.2 (Nat.lt_of_succ_lt_succ hfuel)

/-- From the digits that have been read on: `n` is negative, and it leaves the range exactly where
the number does. -/
theorem readDigits_eq {v : ℕ} (hds : ∀ d ∈ ds, isdigit (d.setWidth 64) = true)
    (hc : isdigit (c.setWidth 64) = false) (h : CharsAt mem s (ds ++ c :: cs))
    (hfuel : ds.length < fuel) (hv : v ≤ 2 ^ 63) :
    readDigits mem fuel s (-v) = long (-decimal v ds) := by
  induction ds generalizing s fuel v with
  | nil =>
    obtain ⟨fuel, rfl⟩ := Nat.exists_eq_succ_of_ne_zero hfuel.ne'
    have hdecimal : decimal v [] = v := rfl
    rw [readDigits, h.1, ok_bind, hc, if_neg Bool.false_ne_true, hdecimal,
      long_eq_ok (by omega)]
  | cons d ds ih =>
    obtain ⟨fuel, rfl⟩ := Nat.exists_eq_succ_of_ne_zero (Nat.ne_of_gt (Nat.zero_lt_of_lt hfuel))
    obtain ⟨hd, hds⟩ := List.forall_mem_cons.mp hds
    have hrange := (isdigit_iff d).mp hd
    have hdecimal : decimal v (d :: ds) = decimal (10 * v + (d.toNat - 0x30)) ds := rfl
    have hle := le_decimal (10 * v + (d.toNat - 0x30)) ds
    rw [readDigits, h.1, ok_bind, hd, if_pos rfl, toInt_setWidth, hdecimal]
    rcases Nat.lt_or_ge (2 ^ 63) (10 * v) with hten | hten
    · rw [long_eq_error (by omega), long_eq_error (by omega), error_bind]
    · rw [long_eq_ok (by omega), ok_bind]
      have hstep : 10 * (-v : ℤ) - (d.toNat - 0x30) = -(10 * v + (d.toNat - 0x30) : ℕ) := by omega
      rw [hstep]
      rcases Nat.lt_or_ge (2 ^ 63) (10 * v + (d.toNat - 0x30)) with hsum | hsum
      · rw [long_eq_error (by omega), long_eq_error (by omega), error_bind]
      · rw [long_eq_ok (by omega), ok_bind]
        exact ih hds h.2 (Nat.lt_of_succ_lt_succ hfuel) hsum

/-! ## `atol` -/

/-- Behind the digits comes another character, at the latest the zero. -/
theorem Numeral.exists_end (n : Numeral) :
    ∃ c cs, n.rest ++ [0] = c :: cs ∧ isdigit (c.setWidth 64) = false := by
  rcases hrest : n.rest with _ | ⟨c, cs⟩
  · exact ⟨0, [], rfl, by decide⟩
  · exact ⟨c, cs ++ [0], rfl, n.rest_ends c (by rw [hrest]; rfl)⟩

/-- What is left when the spaces and the sign have been read. -/
theorem atol_of_digits {s' : Word} {n : ℕ} {x : Word} (hskip : skipSpaces mem fuel s = .ok s')
    (hchar : llreadchar mem s' = .ok x) (hdigits : readDigits mem fuel
      (if x = 0x2d ∨ x = 0x2b then s' + 1 else s') 0 = long (-n)) :
    atol mem fuel s = long (if x = 0x2d then -n else n) := by
  rw [atol, hskip, ok_bind, hchar, ok_bind, hdigits]
  rcases Nat.lt_or_ge (2 ^ 63) n with hn | hn
  · rw [long_eq_error (by omega), error_bind, eq_comm]
    split
    · exact long_eq_error (by omega)
    · exact long_eq_error (by omega)
  · rw [long_eq_ok (by omega), ok_bind]
    split
    · exact (long_eq_ok (by omega)).symm
    · rw [neg_neg]

theorem atol_of_charsAt {n : Numeral} (h : CharsAt mem s (n.text ++ [0]))
    (hfuel : n.text.length < fuel) : atol mem fuel s = long n.value := by
  obtain ⟨c, cs, hend, hc⟩ := n.exists_end
  have hchars : CharsAt mem s (n.spaces ++ (n.sign.text ++ (n.digits ++ c :: cs))) := by
    rwa [Numeral.text, List.append_assoc, List.append_assoc, List.append_assoc, hend] at h
  rw [Numeral.text, List.length_append, List.length_append, List.length_append] at hfuel
  have hspaces : n.spaces.length < fuel := by omega
  have hzero : (0 : ℤ) = -((0 : ℕ) : ℤ) := rfl
  have hread : ∀ s, CharsAt mem s (n.digits ++ c :: cs) →
      readDigits mem fuel s 0 = long (-decimal 0 n.digits) := fun s hs ↦ by
    rw [hzero]
    exact readDigits_eq n.isdigit_digits hc hs (by omega) (Nat.zero_le _)
  rw [Numeral.value]
  rcases hsign : n.sign with - | - | -
  · obtain ⟨d, ds, hds⟩ := List.exists_cons_of_ne_nil n.digits_ne_nil
    rw [hsign, Sign.text, List.nil_append, hds, List.cons_append] at hchars
    obtain ⟨hspace, hminus, hplus⟩ := not_space_of_digit
      (n.isdigit_digits d (by rw [hds]; exact List.mem_cons_self))
    obtain ⟨s', hskip, hs'⟩ := skipSpaces_eq n.isspace_spaces hspace hchars hspaces
    rw [atol_of_digits hskip hs'.1, if_neg hminus]
    · rfl
    · rw [if_neg (not_or.mpr ⟨hminus, hplus⟩)]
      exact hread s' (by rwa [hds, List.cons_append])
  · rw [hsign, Sign.text, List.singleton_append] at hchars
    obtain ⟨s', hskip, hs'⟩ := skipSpaces_eq n.isspace_spaces (by decide) hchars hspaces
    rw [atol_of_digits hskip hs'.1 (hread (s' + 1) hs'.2)]
    rfl
  · rw [hsign, Sign.text, List.singleton_append] at hchars
    obtain ⟨s', hskip, hs'⟩ := skipSpaces_eq n.isspace_spaces (by decide) hchars hspaces
    rw [atol_of_digits hskip hs'.1 (hread (s' + 1) hs'.2)]
    rfl

/-- **`atol` is exact.** Every number that a `long` can hold is computed without an overflow on the
way, and any other overflows. -/
theorem atol_eq (h : StringAt mem s a) (n : Numeral) (hn : a.chars = n.text)
    (hfuel : a.chars.length < fuel) : atol mem fuel s = long n.value := by
  have hchars := h.charsAt
  rw [CString.bytes, hn] at hchars
  exact atol_of_charsAt hchars (hn ▸ hfuel)

/-- The smallest number of all, behind a space and before a semicolon. -/
def smallest : Numeral where
  spaces := [0x20]
  sign := .minus
  digits := [0x39, 0x32, 0x32, 0x33, 0x33, 0x37, 0x32, 0x30, 0x33, 0x36, 0x38, 0x35, 0x34, 0x37,
    0x37, 0x35, 0x38, 0x30, 0x38]
  rest := [0x3b]
  isspace_spaces := by decide
  isdigit_digits := by decide
  digits_ne_nil := List.cons_ne_nil _ _
  rest_ends := by decide

theorem atol_smallest : atol (Copy.run ⟨0x10003, smallest.text ++ [0]⟩ fun _ ↦ 1) 23 0x10003 =
    .ok (-0x8000000000000000) :=
  (atol_eq (stringAt_run (a := ⟨smallest.text, by decide⟩) (by decide) (by decide)) smallest rfl
    (by decide)).trans (by decide)

/-! ## `PrintVal` -/

theorem toNat_outDig {d : ℕ} (hd : d < 10) : (outDig d).toNat = d + 0x30 := by
  rw [outDig, BitVec.toNat_ofInt]
  omega

theorem printVal_natCast (v : ℕ) :
    printVal v = (if 9 < v then printVal ((v / 10 : ℕ) : ℤ) else []) ++ [outDig (v % 10 : ℕ)] := by
  rw [printVal, Int.tdiv_eq_ediv_of_nonneg (Int.natCast_nonneg v),
    Int.tmod_eq_emod_of_nonneg (Int.natCast_nonneg v)]
  simp

theorem printVal_spec (v : ℕ) : (∀ d ∈ printVal v, isdigit (d.setWidth 64) = true) ∧
    decimal 0 (printVal v) = v := by
  induction v using Nat.strong_induction_on with
  | _ v ih =>
    have hd := toNat_outDig (Nat.mod_lt v (by decide : 0 < 10))
    have hdigit : isdigit ((outDig (v % 10 : ℕ)).setWidth 64) = true := by
      rw [isdigit_iff]
      omega
    rw [printVal_natCast, decimal_append_singleton, hd]
    split
    · obtain ⟨hdigits, hdecimal⟩ := ih (v / 10) (by omega)
      refine ⟨List.forall_mem_append.mpr ⟨hdigits, List.forall_mem_singleton.mpr hdigit⟩, ?_⟩
      rw [hdecimal]
      omega
    · refine ⟨List.forall_mem_singleton.mpr hdigit, ?_⟩
      have hnil : decimal 0 [] = 0 := rfl
      rw [hnil]
      omega

/-- What `PrintVal` writes is a numeral. -/
def printed (v : ℕ) : Numeral where
  spaces := []
  sign := .absent
  digits := printVal v
  rest := []
  isspace_spaces := List.forall_mem_nil _
  isdigit_digits := (printVal_spec v).1
  digits_ne_nil := by
    rw [printVal_natCast]
    exact List.append_ne_nil_of_right_ne_nil _ (List.cons_ne_nil _ _)
  rest_ends c hc := by cases hc

theorem value_printed (v : ℕ) : (printed v).value = v := congrArg Nat.cast (printVal_spec v).2

/-! ## The arguments of a program -/

theorem stringAt_argv {args : Arguments} {k : ℕ} {m : Mem} (hfits : args.Fits)
    (ha : args.argv[k]? = some a) :
    StringAt (initStack args m).mem (address (initStack args m) k) a := by
  have haddress : address (initStack args m) k = args.string k := Arguments.load_newargv hfits ha
  have hfirst := args.toNat_first
  have hbase : stackBase.toNat = 0x3fffc00 := rfl
  have hstring := Arguments.toNat_string hfits k
  have htop := Arguments.string_add_lt hfits ha
  rw [haddress]
  exact ⟨by omega, by omega, fun i hi ↦ Arguments.getElem?_string hfits ha hi⟩

/-- **What `PrintVal` writes is read back.** A program finds the number in the argument, and its
length. -/
theorem atol_argv {args : Arguments} (hfits : args.Fits) (m : Mem) {k v : ℕ}
    (ha : args.argv[k]? = some a) (hv : a.chars = printVal v) (hlong : v < 2 ^ 63)
    (hfuel : a.chars.length + 8 ≤ fuel) :
    atol (initStack args m).mem fuel (address (initStack args m) k) = .ok (v : ℤ) ∧
      llstrlen (initStack args m).mem fuel (address (initStack args m) k) =
        .ok (BitVec.ofNat 64 (printVal v).length) := by
  have hstring := stringAt_argv (m := m) hfits ha
  have htext : a.chars = (printed v).text := by
    rw [hv, Numeral.text, printed, Sign.text, List.nil_append, List.nil_append, List.append_nil]
  have hchars := hstring.charsAt
  rw [CString.bytes, htext] at hchars
  rw [htext] at hfuel
  constructor
  · rw [atol_of_charsAt hchars (by omega), value_printed, long_eq_ok (by omega)]
  · rw [llstrlen_start, ← hv]
    exact hstring.strlenLoop_start (by rw [htext]; omega)

/-- One argument, of four digits. -/
def fourDigits : Arguments where
  argv := [⟨[0x31, 0x30, 0x32, 0x34], by decide⟩]
  argc_lt := by decide

theorem atol_argv_fourDigits :
    let s := initStack fourDigits fun _ ↦ 0
    atol s.mem 12 (address s 0) = .ok ((1024 : ℕ) : ℤ) ∧
      llstrlen s.mem 12 (address s 0) = .ok (BitVec.ofNat 64 (printVal (1024 : ℕ)).length) := by
  have hprinted : printVal (1024 : ℕ) = [0x31, 0x30, 0x32, 0x34] := by
    rw [printVal_natCast, if_pos (by decide), printVal_natCast, if_pos (by decide),
      printVal_natCast, if_pos (by decide), printVal_natCast, if_neg (by decide)]
    decide
  have hfits : fourDigits.Fits := by decide +kernel
  exact atol_argv hfits (fun _ ↦ 0) rfl hprinted.symm (by decide) (by decide)

end Cse502.Libc
