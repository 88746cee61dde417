import Mathlib.Logic.Function.Basic
import Mathlib.Order.Basic
import Mathlib.Tactic

/-!
# Direct-mapped storage

A storage with one line for each index. A line holds a tag, which tells the blocks of one index
apart, and with it the state and the data of the block. An operation on another block than the one
in the line is a miss and changes nothing, except for an insert, which replaces the line.

The history of a storage is a sequence of operations, at most one at a time. From it follows what a
line holds: the tag of the last insert, and for the block of that tag what was stored last.
-/

namespace DirectMapped

variable {ι τ σ δ : Type*}

/-- What is stored at an index. -/
@[ext] structure Line (τ σ δ : Type*) where
  tag : τ
  state : σ
  data : δ

/-- The operations on the block with a given index and tag. -/
inductive Op (ι τ σ δ : Type*)
  | insert (i : ι) (t : τ) (s : σ) (d : δ)
  | read (i : ι) (t : τ)
  | write (i : ι) (t : τ) (s : σ) (d : δ)
  | update (i : ι) (t : τ) (s : σ)

namespace Op

/-- The index of the block. -/
def index : Op ι τ σ δ → ι
  | insert i _ _ _ | read i _ | write i _ _ _ | update i _ _ => i

/-- The tag of the block. -/
def tag : Op ι τ σ δ → τ
  | insert _ t _ _ | read _ t | write _ t _ _ | update _ t _ => t

end Op

variable [DecidableEq ι] [DecidableEq τ]

/-- What an operation leaves in storage. -/
def apply (m : ι → Line τ σ δ) : Op ι τ σ δ → ι → Line τ σ δ
  | .insert i t s d => Function.update m i ⟨t, s, d⟩
  | .read _ _ => m
  | .write i t s d => if (m i).tag = t then Function.update m i ⟨t, s, d⟩ else m
  | .update i t s => if (m i).tag = t then Function.update m i ⟨t, s, (m i).data⟩ else m

/-- The storage after the first `n` places of a history. -/
def contents (m : ι → Line τ σ δ) (ops : ℕ → Option (Op ι τ σ δ)) : ℕ → ι → Line τ σ δ
  | 0 => m
  | n + 1 => (ops n).elim (contents m ops n) (apply (contents m ops n))

/-- The operation stores data for the block `i`, `t`: an insert, or a write that hits. -/
def StoresData (m : ι → Line τ σ δ) (i : ι) (t : τ) (d : δ) : Op ι τ σ δ → Prop
  | .insert i' t' _ d' => i' = i ∧ t' = t ∧ d' = d
  | .write i' t' _ d' => i' = i ∧ t' = t ∧ d' = d ∧ (m i).tag = t
  | .read _ _ | .update _ _ _ => False

/-- The operation stores a state for the block `i`, `t`: an insert, or a write or update that
hits. -/
def StoresState (m : ι → Line τ σ δ) (i : ι) (t : τ) (s : σ) : Op ι τ σ δ → Prop
  | .insert i' t' s' _ => i' = i ∧ t' = t ∧ s' = s
  | .write i' t' s' _ | .update i' t' s' => i' = i ∧ t' = t ∧ s' = s ∧ (m i).tag = t
  | .read _ _ => False

/-- The operation inserts the block `i`, `t`. -/
def Inserts (i : ι) (t : τ) (op : Op ι τ σ δ) : Prop := ∃ s d, op = .insert i t s d

variable {m : ι → Line τ σ δ} {i : ι} {t : τ}

/-! ## One operation -/

/-- What an operation can do to a line: nothing, replace it, or change the block that is in it. -/
inductive LineStep (m : ι → Line τ σ δ) (i : ι) : Op ι τ σ δ → Line τ σ δ → Prop
  | same (op : Op ι τ σ δ) (h : ∀ t, ¬Inserts i t op) : LineStep m i op (m i)
  | insert (t : τ) (s : σ) (d : δ) : LineStep m i (.insert i t s d) ⟨t, s, d⟩
  | write (s : σ) (d : δ) : LineStep m i (.write i (m i).tag s d) ⟨(m i).tag, s, d⟩
  | update (s : σ) : LineStep m i (.update i (m i).tag s) ⟨(m i).tag, s, (m i).data⟩

theorem lineStep_apply (m : ι → Line τ σ δ) (i : ι) (op : Op ι τ σ δ) :
    LineStep m i op (apply m op i) := by
  cases op with
  | insert j t s d =>
    by_cases hij : i = j
    · subst hij
      rw [apply, Function.update_self]
      exact .insert t s d
    · rw [apply, Function.update_of_ne hij]
      refine .same _ ?_
      rintro t' ⟨s', d', ⟨⟩⟩
      exact hij rfl
  | read j t => exact .same _ (by rintro t' ⟨s', d', ⟨⟩⟩)
  | write j t s d =>
    rw [apply]
    split_ifs with hit
    · by_cases hij : i = j
      · subst hij hit
        rw [Function.update_self]
        exact .write s d
      · rw [Function.update_of_ne hij]
        exact .same _ (by rintro t' ⟨s', d', ⟨⟩⟩)
    · exact .same _ (by rintro t' ⟨s', d', ⟨⟩⟩)
  | update j t s =>
    rw [apply]
    split_ifs with hit
    · by_cases hij : i = j
      · subst hij hit
        rw [Function.update_self]
        exact .update s
      · rw [Function.update_of_ne hij]
        exact .same _ (by rintro t' ⟨s', d', ⟨⟩⟩)
    · exact .same _ (by rintro t' ⟨s', d', ⟨⟩⟩)

/-- Only an insert changes a tag. -/
theorem tag_apply (op : Op ι τ σ δ) (h : ∀ t, ¬Inserts i t op) :
    (apply m op i).tag = (m i).tag := by
  have hstep := lineStep_apply m i op
  generalize apply m op i = l at hstep
  cases hstep with
  | insert t s d => exact absurd ⟨s, d, rfl⟩ (h t)
  | same | write | update => rfl

/-- An insert leaves its tag. -/
theorem tag_apply_of_inserts {op : Op ι τ σ δ} (h : Inserts i t op) : (apply m op i).tag = t := by
  obtain ⟨s, d, rfl⟩ := h
  rw [apply, Function.update_self]

/-- An operation done twice is done once. -/
theorem apply_apply (m : ι → Line τ σ δ) (op : Op ι τ σ δ) :
    apply (apply m op) op = apply m op := by
  cases op with
  | insert j t s d => rw [apply, apply, Function.update_idem]
  | read j t => rfl
  | write j t s d =>
    by_cases hit : (m j).tag = t
    · have htag : (Function.update m j (⟨t, s, d⟩ : Line τ σ δ) j).tag = t := by
        rw [Function.update_self]
      rw [apply, apply, if_pos hit, if_pos htag, Function.update_idem]
    · rw [apply, apply, if_neg hit, if_neg hit]
  | update j t s =>
    by_cases hit : (m j).tag = t
    · have htag : (Function.update m j (⟨t, s, (m j).data⟩ : Line τ σ δ) j).tag = t := by
        rw [Function.update_self]
      rw [apply, apply, if_pos hit, if_pos htag, Function.update_idem, Function.update_self]
    · rw [apply, apply, if_neg hit, if_neg hit]

/-- Data that is stored is there. -/
theorem data_apply {op : Op ι τ σ δ} {d : δ} (h : StoresData m i t d op) :
    (apply m op i).data = d := by
  cases op with
  | insert j t' s d' =>
    obtain ⟨rfl, rfl, rfl⟩ := h
    rw [apply, Function.update_self]
  | write j t' s d' =>
    obtain ⟨rfl, rfl, rfl, htag⟩ := h
    rw [apply, if_pos htag, Function.update_self]
  | read j t' => exact h.elim
  | update j t' s => exact h.elim

/-- A state that is stored is there. -/
theorem state_apply {op : Op ι τ σ δ} {s : σ} (h : StoresState m i t s op) :
    (apply m op i).state = s := by
  cases op with
  | insert j t' s' d' =>
    obtain ⟨rfl, rfl, rfl⟩ := h
    rw [apply, Function.update_self]
  | write j t' s' d' =>
    obtain ⟨rfl, rfl, rfl, htag⟩ := h
    rw [apply, if_pos htag, Function.update_self]
  | update j t' s' =>
    obtain ⟨rfl, rfl, rfl, htag⟩ := h
    rw [apply, if_pos htag, Function.update_self]
  | read j t' => exact h.elim

/-- A block that an operation leaves in its line without storing data for it was in the line
before, with the same data. -/
theorem data_apply_of_not {op : Op ι τ σ δ} (h : ∀ d, ¬StoresData m i t d op)
    (htag : (apply m op i).tag = t) : (m i).tag = t ∧ (apply m op i).data = (m i).data := by
  have hstep := lineStep_apply m i op
  generalize apply m op i = l at hstep htag ⊢
  cases hstep with
  | same => exact ⟨htag, rfl⟩
  | insert t' s d => exact absurd ⟨rfl, htag, rfl⟩ (h d)
  | write s d => exact absurd ⟨rfl, htag, rfl, htag⟩ (h d)
  | update s => exact ⟨htag, rfl⟩

/-- The same for the state. -/
theorem state_apply_of_not {op : Op ι τ σ δ} (h : ∀ s, ¬StoresState m i t s op)
    (htag : (apply m op i).tag = t) : (m i).tag = t ∧ (apply m op i).state = (m i).state := by
  have hstep := lineStep_apply m i op
  generalize apply m op i = l at hstep htag ⊢
  cases hstep with
  | same => exact ⟨htag, rfl⟩
  | insert t' s d => exact absurd ⟨rfl, htag, rfl⟩ (h s)
  | write s d => exact absurd ⟨rfl, htag, rfl, htag⟩ (h s)
  | update s => exact absurd ⟨rfl, htag, rfl, htag⟩ (h s)

/-! ## Whole histories -/

variable {ops : ℕ → Option (Op ι τ σ δ)} {k n : ℕ}

theorem contents_succ_of_none (h : ops n = none) :
    contents m ops (n + 1) = contents m ops n := by
  rw [contents, h]
  rfl

theorem contents_succ_of_some {op : Op ι τ σ δ} (h : ops n = some op) :
    contents m ops (n + 1) = apply (contents m ops n) op := by
  rw [contents, h]
  rfl

/-- **A block in its line has the data that was stored for it last.** -/
theorem data_of_latest {op : Op ι τ σ δ} {d : δ} (hk : ops k = some op)
    (hop : StoresData (contents m ops k) i t d op) (hkn : k < n)
    (hlast : ∀ j, k < j → j < n → ∀ op', ops j = some op' →
      ∀ d', ¬StoresData (contents m ops j) i t d' op')
    (htag : (contents m ops n i).tag = t) : (contents m ops n i).data = d := by
  induction n, hkn using Nat.le_induction with
  | base =>
    rw [contents_succ_of_some hk]
    exact data_apply hop
  | succ n hkn ih =>
    have hlast' : ∀ j, k < j → j < n → ∀ op', ops j = some op' →
        ∀ d', ¬StoresData (contents m ops j) i t d' op' :=
      fun j hkj hjn ↦ hlast j hkj (Nat.lt_succ_of_lt hjn)
    cases hn : ops n with
    | none =>
      rw [contents_succ_of_none hn] at htag ⊢
      exact ih hlast' htag
    | some op' =>
      rw [contents_succ_of_some hn] at htag ⊢
      obtain ⟨htag', hdata⟩ := data_apply_of_not (hlast n hkn (Nat.lt_succ_self n) op' hn) htag
      rw [hdata]
      exact ih hlast' htag'

/-- **A block in its line has the state that was stored for it last.** -/
theorem state_of_latest {op : Op ι τ σ δ} {s : σ} (hk : ops k = some op)
    (hop : StoresState (contents m ops k) i t s op) (hkn : k < n)
    (hlast : ∀ j, k < j → j < n → ∀ op', ops j = some op' →
      ∀ s', ¬StoresState (contents m ops j) i t s' op')
    (htag : (contents m ops n i).tag = t) : (contents m ops n i).state = s := by
  induction n, hkn using Nat.le_induction with
  | base =>
    rw [contents_succ_of_some hk]
    exact state_apply hop
  | succ n hkn ih =>
    have hlast' : ∀ j, k < j → j < n → ∀ op', ops j = some op' →
        ∀ s', ¬StoresState (contents m ops j) i t s' op' :=
      fun j hkj hjn ↦ hlast j hkj (Nat.lt_succ_of_lt hjn)
    cases hn : ops n with
    | none =>
      rw [contents_succ_of_none hn] at htag ⊢
      exact ih hlast' htag
    | some op' =>
      rw [contents_succ_of_some hn] at htag ⊢
      obtain ⟨htag', hstate⟩ := state_apply_of_not (hlast n hkn (Nat.lt_succ_self n) op' hn) htag
      rw [hstate]
      exact ih hlast' htag'

/-- The block `i`, `t` is inserted at place `n`. -/
def InsertedAt (ops : ℕ → Option (Op ι τ σ δ)) (n : ℕ) (i : ι) (t : τ) : Prop :=
  ∃ op, ops n = some op ∧ Inserts i t op

/-- The block was inserted, and no other block of its index since. -/
def Resident (ops : ℕ → Option (Op ι τ σ δ)) (n : ℕ) (i : ι) (t : τ) : Prop :=
  ∃ k < n, InsertedAt ops k i t ∧ ∀ j, k < j → j < n → ∀ t', InsertedAt ops j i t' → t' = t

/-- Some block of the index was inserted. -/
def Filled (ops : ℕ → Option (Op ι τ σ δ)) (n : ℕ) (i : ι) : Prop :=
  ∃ k < n, ∃ t, InsertedAt ops k i t

/-- A line that has been filled holds the tag that was inserted last, and a line that has not holds
the tag it had at the start. -/
theorem tag_contents (m : ι → Line τ σ δ) (ops : ℕ → Option (Op ι τ σ δ)) (n : ℕ) (i : ι) :
    Resident ops n i (contents m ops n i).tag ∨
      (¬Filled ops n i ∧ (contents m ops n i).tag = (m i).tag) := by
  induction n with
  | zero => exact .inr ⟨fun ⟨k, hk, _⟩ ↦ absurd hk (Nat.not_lt_zero k), rfl⟩
  | succ n ih =>
    by_cases hins : ∃ t, InsertedAt ops n i t
    · obtain ⟨t, op, hop, ht⟩ := hins
      rw [contents_succ_of_some hop, tag_apply_of_inserts ht]
      exact .inl ⟨n, Nat.lt_succ_self n, ⟨op, hop, ht⟩, fun j hnj hjn ↦ by omega⟩
    · push Not at hins
      have htag : (contents m ops (n + 1) i).tag = (contents m ops n i).tag := by
        cases hop : ops n with
        | none => rw [contents_succ_of_none hop]
        | some op =>
          rw [contents_succ_of_some hop]
          exact tag_apply op fun t ht ↦ hins t ⟨op, hop, ht⟩
      rw [htag]
      rcases ih with ⟨k, hk, hkt, hlast⟩ | ⟨hfilled, hm⟩
      · refine .inl ⟨k, Nat.lt_succ_of_lt hk, hkt, fun j hkj hjn t' ht' ↦ ?_⟩
        rcases Nat.lt_succ_iff_lt_or_eq.mp hjn with hjn | rfl
        · exact hlast j hkj hjn t' ht'
        · exact absurd ht' (hins t')
      · refine .inr ⟨?_, hm⟩
        rintro ⟨k, hk, t, ht⟩
        rcases Nat.lt_succ_iff_lt_or_eq.mp hk with hk | rfl
        · exact hfilled ⟨k, hk, t, ht⟩
        · exact hins t ht

/-- A resident block is the one in the line. -/
theorem tag_of_resident (h : Resident ops n i t) : (contents m ops n i).tag = t := by
  obtain ⟨k, hkn, hk, hlast⟩ := h
  rcases tag_contents m ops n i with ⟨k', hk'n, hk', hlast'⟩ | ⟨hfilled, -⟩
  · rcases Nat.lt_trichotomy k k' with hlt | rfl | hlt
    · exact hlast k' hlt hk'n _ hk'
    · obtain ⟨op, hop, s, d, rfl⟩ := hk
      obtain ⟨op', hop', s', d', rfl⟩ := hk'
      injection (Option.some.inj (hop.symm.trans hop')) with _ htag
      exact htag.symm
    · exact (hlast' k hlt hkn t hk).symm
  · exact absurd ⟨k, hkn, t, hk⟩ hfilled

/-- **Which block is in a line**: the resident one, or before the first insert the one whose tag was
there from the start. -/
theorem tag_contents_eq_iff : (contents m ops n i).tag = t ↔
    Resident ops n i t ∨ (¬Filled ops n i ∧ (m i).tag = t) := by
  constructor
  · rintro rfl
    rcases tag_contents m ops n i with h | ⟨hfilled, hm⟩
    · exact .inl h
    · exact .inr ⟨hfilled, hm.symm⟩
  · rintro (h | ⟨hfilled, hm⟩)
    · exact tag_of_resident h
    · rcases tag_contents m ops n i with ⟨k, hk, hkt, -⟩ | ⟨-, hm'⟩
      · exact absurd ⟨k, hk, _, hkt⟩ hfilled
      · exact hm'.trans hm

end DirectMapped
