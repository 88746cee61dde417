import Mathlib.Tactic

/-!
# Prefix codes

A decoder that recognises a word from its own symbols, whatever follows them, and a message that is
a sequence of such words. What can be decoded of the first `n` symbols are the words that end there,
`whole`; the symbols behind them are the beginning of the next word and decode to nothing.

The words that end in the first `n + m` symbols are those that end in the first `n`, and then those
of the rest of the message that end in the symbols left over and the next `m`.
-/

variable {α β : Type*}

/-- A decoder of one word: its value, and how many symbols it took. -/
structure PrefixCode (α β : Type*) where
  decode : List α → Option (β × ℕ)
  length_pos : ∀ {xs b n}, decode xs = some (b, n) → 0 < n ∧ n ≤ xs.length
  prefix_free :
    ∀ {xs b n}, decode xs = some (b, n) → ∀ rest, decode (xs.take n ++ rest) = some (b, n)

namespace PrefixCode

variable {c : PrefixCode α β}

/-- A word of the code with its value. -/
structure Encoding (c : PrefixCode α β) where
  symbols : List α
  value : β
  decode_eq : c.decode symbols = some (value, symbols.length)

/-- Nothing is decoded from no symbols. -/
@[simp] theorem decode_nil (c : PrefixCode α β) : c.decode [] = none := by
  cases h : c.decode [] with
  | none => rfl
  | some r =>
    obtain ⟨hpos, hle⟩ := c.length_pos h
    exact absurd (hpos.trans_le hle) (Nat.lt_irrefl 0)

theorem Encoding.length_pos (e : Encoding c) : 0 < e.symbols.length := (c.length_pos e.decode_eq).1

/-- A word is decoded whatever follows it. -/
theorem Encoding.decode_append (e : Encoding c) (rest : List α) :
    c.decode (e.symbols ++ rest) = some (e.value, e.symbols.length) := by
  have h := c.prefix_free e.decode_eq rest
  rwa [List.take_length] at h

/-- The beginning of a word is no word. -/
theorem Encoding.decode_take (e : Encoding c) {n : ℕ} (hn : n < e.symbols.length) :
    c.decode (e.symbols.take n) = none := by
  cases h : c.decode (e.symbols.take n) with
  | none => rfl
  | some r =>
    obtain ⟨b, k⟩ := r
    have hle := (c.length_pos h).2
    rw [List.length_take, min_eq_left hn.le] at hle
    -- the decoder would take that beginning from the whole word too
    have hwhole := c.prefix_free h (e.symbols.drop k)
    rw [List.take_take, min_eq_left hle, List.take_append_drop, e.decode_eq, Option.some.injEq,
      Prod.mk.injEq] at hwhole
    exact absurd hn (Nat.not_lt_of_le (hwhole.2.le.trans hle))

/-- A message. -/
def text (es : List (Encoding c)) : List α := es.flatMap Encoding.symbols

/-- The words of a message that end in its first `n` symbols. -/
def whole : List (Encoding c) → ℕ → List (Encoding c)
  | [], _ => []
  | e :: es, n => if e.symbols.length ≤ n then e :: whole es (n - e.symbols.length) else []

/-- The symbols behind the last of these words. -/
def leftover : List (Encoding c) → ℕ → List α
  | [], _ => []
  | e :: es, n =>
    if e.symbols.length ≤ n then leftover es (n - e.symbols.length) else e.symbols.take n

/-- The words after them. -/
def remaining : List (Encoding c) → ℕ → List (Encoding c)
  | [], _ => []
  | e :: es, n => if e.symbols.length ≤ n then remaining es (n - e.symbols.length) else e :: es

@[simp] theorem text_nil : text ([] : List (Encoding c)) = [] := rfl

theorem text_cons (e : Encoding c) (es : List (Encoding c)) :
    text (e :: es) = e.symbols ++ text es :=
  List.flatMap_cons

theorem text_append (es es' : List (Encoding c)) : text (es ++ es') = text es ++ text es' :=
  List.flatMap_append

theorem whole_append_remaining (es : List (Encoding c)) (n : ℕ) :
    whole es n ++ remaining es n = es := by
  induction es generalizing n with
  | nil => rfl
  | cons e es ih =>
    rw [whole, remaining]
    split_ifs with hle
    · rw [List.cons_append, ih]
    · rfl

/-- The first symbols are those of the whole words and those left over. -/
theorem text_whole_append_leftover (es : List (Encoding c)) (n : ℕ) :
    text (whole es n) ++ leftover es n = (text es).take n := by
  induction es generalizing n with
  | nil => rw [text_nil, List.take_nil]; rfl
  | cons e es ih =>
    rw [whole, leftover, text_cons]
    split_ifs with hle
    · rw [text_cons, List.append_assoc, ih, List.take_append, List.take_of_length_le hle]
    · rw [text_nil, List.nil_append, List.take_append_of_le_length (Nat.le_of_not_le hle)]

/-- A message that is complete leaves nothing over. -/
theorem whole_text (es : List (Encoding c)) : whole es (text es).length = es := by
  induction es with
  | nil => rfl
  | cons e es ih =>
    rw [text_cons, List.length_append, whole, if_pos (Nat.le_add_right _ _),
      Nat.add_sub_cancel_left,
      ih]

theorem leftover_text (es : List (Encoding c)) : leftover es (text es).length = [] := by
  have h := text_whole_append_leftover es (text es).length
  rw [whole_text, List.take_length] at h
  exact List.append_right_eq_self.mp h

/-- With more symbols, the decoding goes on with those left over. -/
theorem whole_add (es : List (Encoding c)) (n m : ℕ) :
    whole es (n + m) = whole es n ++ whole (remaining es n) ((leftover es n).length + m) := by
  induction es generalizing n with
  | nil => rfl
  | cons e es ih =>
    by_cases hle : e.symbols.length ≤ n
    · rw [remaining, leftover, if_pos hle, if_pos hle, whole, whole, if_pos hle,
        if_pos (Nat.le_add_right_of_le hle), Nat.sub_add_comm hle, ih, List.cons_append]
    · have htake : (e.symbols.take n).length = n :=
        List.length_take_of_le (Nat.le_of_not_le hle)
      have hnil : whole (e :: es) n = [] := if_neg hle
      rw [remaining, leftover, if_neg hle, if_neg hle, hnil, htake, List.nil_append]

theorem leftover_add (es : List (Encoding c)) (n m : ℕ) :
    leftover es (n + m) = leftover (remaining es n) ((leftover es n).length + m) := by
  induction es generalizing n with
  | nil => rfl
  | cons e es ih =>
    by_cases hle : e.symbols.length ≤ n
    · rw [remaining, leftover.eq_2 n, leftover, if_pos hle, if_pos hle,
        if_pos (Nat.le_add_right_of_le hle),
        Nat.sub_add_comm hle, ih]
    · have htake : (e.symbols.take n).length = n :=
        List.length_take_of_le (Nat.le_of_not_le hle)
      rw [remaining, leftover.eq_2 n, if_neg hle, if_neg hle, htake]

/-- The symbols left over begin the next word of the message. -/
theorem leftover_append (es : List (Encoding c)) (n m : ℕ) :
    leftover es n ++ ((text es).drop n).take m =
      (text (remaining es n)).take ((leftover es n).length + m) := by
  have hsplit := text_whole_append_leftover es n
  have hall : text (whole es n) ++ text (remaining es n) = text es := by
    rw [← text_append, whole_append_remaining]
  have hrest : leftover es n ++ (text es).drop n = text (remaining es n) := by
    have hfront : text (whole es n) ++ (leftover es n ++ (text es).drop n) =
        text (whole es n) ++ text (remaining es n) := by
      rw [← List.append_assoc, hsplit, List.take_append_drop, hall]
    exact List.append_cancel_left hfront
  rw [← hrest, List.take_append, List.take_of_length_le (Nat.le_add_right _ _),
    Nat.add_sub_cancel_left]

/-! ## Codes given by a table -/

section Table

variable [DecidableEq α] {t : List (List α × β)} {e : List α × β}

/-- The first word of a table that the symbols begin with, and its length. -/
def lookup (t : List (List α × β)) (xs : List α) : Option (β × ℕ) :=
  (t.find? fun e ↦ e.1.isPrefixOf xs).map fun e ↦ (e.2, e.1.length)

/-- A word of the table is found whatever follows it, if no word is the beginning of another. -/
theorem lookup_append (hfree : t.Pairwise fun e e' ↦ ¬e.1 <+: e'.1 ∧ ¬e'.1 <+: e.1) (he : e ∈ t)
    (rest : List α) : lookup t (e.1 ++ rest) = some (e.2, e.1.length) := by
  obtain ⟨before, behind, rfl⟩ := List.append_of_mem he
  have hfind : (before ++ e :: behind).find? (fun e' ↦ e'.1.isPrefixOf (e.1 ++ rest)) =
      some e := by
    refine List.find?_eq_some_iff_append.mpr
      ⟨List.isPrefixOf_iff_prefix.mpr (List.prefix_append _ _), before, behind, rfl,
        fun e' he' ↦ ?_⟩
    rw [Bool.not_eq_true', Bool.eq_false_iff, ne_eq, List.isPrefixOf_iff_prefix]
    intro hprefix
    obtain ⟨hne, hne'⟩ := (List.pairwise_append.mp hfree).2.2 e' he' e List.mem_cons_self
    rcases List.prefix_or_prefix_of_prefix hprefix (List.prefix_append e.1 rest) with h | h
    · exact hne h
    · exact hne' h
  rw [lookup, hfind]
  rfl

theorem exists_of_lookup {xs : List α} {b : β} {n : ℕ} (h : lookup t xs = some (b, n)) :
    ∃ e ∈ t, e.1 <+: xs ∧ b = e.2 ∧ n = e.1.length := by
  obtain ⟨e, hfind, heq⟩ := Option.map_eq_some_iff.mp h
  obtain ⟨rfl, rfl⟩ := Prod.mk.inj heq
  exact ⟨e, List.mem_of_find?_eq_some hfind,
    List.isPrefixOf_iff_prefix.mp (List.find?_eq_some_iff_append.mp hfind).1, rfl, rfl⟩

/-- The code of a table in which no word is the beginning of another. -/
def ofTable (t : List (List α × β)) (hne : ∀ e ∈ t, e.1 ≠ [])
    (hfree : t.Pairwise fun e e' ↦ ¬e.1 <+: e'.1 ∧ ¬e'.1 <+: e.1) : PrefixCode α β where
  decode := lookup t
  length_pos h := by
    obtain ⟨e, he, hprefix, -, rfl⟩ := exists_of_lookup h
    exact ⟨List.length_pos_iff.mpr (hne e he), hprefix.length_le⟩
  prefix_free h rest := by
    obtain ⟨e, he, hprefix, rfl, rfl⟩ := exists_of_lookup h
    rw [← List.prefix_iff_eq_take.mp hprefix]
    exact lookup_append hfree he rest

end Table

end PrefixCode
