import Cse502.Warmup.Handshake

/-!
# What the warm-up cache holds

Between requests the lines of the cache are those of a direct-mapped storage after the requests
accepted so far. That a block is found again with what was stored last follows for every run.

Two things a two-way cache with valid bits would do, this one does not. Both sets are written by
every insert, so they hold the same block, and the second of two blocks of one index replaces the
first. And presence is a comparison of tags alone, so a block with the tag of the cleared arrays is
found in a line that nothing was ever inserted in.
-/

namespace Cse502.Warmup

open DirectMapped (Line Op)

/-! ## Blocks -/

/-- Addresses in one block of 64 bytes. -/
def SameBlock (a b : Addr) : Prop := a >>> 6 = b >>> 6

instance (a b : Addr) : Decidable (SameBlock a b) := inferInstanceAs (Decidable (_ = _))

/-- The index is four bits of the address. -/
theorem getLsbD_indexOf (a : Addr) {i : ℕ} (hi : i < 4) :
    (indexOf a).getLsbD i = a.getLsbD (6 + i) := by
  have hmask : (0x3C0 : Addr).getLsbD (6 + i) = true := by
    interval_cases i <;> rfl
  rw [indexOf, BitVec.getLsbD_setWidth, BitVec.getLsbD_ushiftRight, BitVec.getLsbD_and, hmask,
    decide_eq_true hi, Bool.true_and, Bool.and_true]

/-- The tag is what lies above it. -/
theorem getLsbD_tagOf (a : Addr) {i : ℕ} (hi : i < 64) :
    (tagOf a).getLsbD i = (a.getLsbD i && decide (10 ≤ i)) := by
  have hmask : (~~~(0x3FF : Addr)).getLsbD i = decide (10 ≤ i) := by
    interval_cases i <;> rfl
  rw [tagOf, BitVec.getLsbD_and, hmask]

/-- **A block is an index and a tag.** -/
theorem sameBlock_iff (a b : Addr) :
    SameBlock a b ↔ indexOf a = indexOf b ∧ tagOf a = tagOf b := by
  constructor
  · intro h
    have hbit : ∀ i, a.getLsbD (6 + i) = b.getLsbD (6 + i) := by
      intro i
      rw [← BitVec.getLsbD_ushiftRight, ← BitVec.getLsbD_ushiftRight, h]
    constructor
    · apply BitVec.eq_of_getLsbD_eq
      intro i hi
      rw [getLsbD_indexOf a hi, getLsbD_indexOf b hi, hbit]
    · apply BitVec.eq_of_getLsbD_eq
      intro i hi
      rw [getLsbD_tagOf a hi, getLsbD_tagOf b hi]
      by_cases h10 : 10 ≤ i
      · have hi6 := hbit (i - 6)
        rw [show 6 + (i - 6) = i by omega] at hi6
        rw [hi6]
      · rw [decide_eq_false h10, Bool.and_false, Bool.and_false]
  · rintro ⟨hindex, htag⟩
    apply BitVec.eq_of_getLsbD_eq
    intro i hi
    rw [BitVec.getLsbD_ushiftRight, BitVec.getLsbD_ushiftRight]
    by_cases h4 : i < 4
    · rw [← getLsbD_indexOf a h4, ← getLsbD_indexOf b h4, hindex]
    · by_cases h64 : 6 + i < 64
      · have ha := getLsbD_tagOf a h64
        have hb := getLsbD_tagOf b h64
        rw [decide_eq_true (show 10 ≤ 6 + i by omega), Bool.and_true] at ha hb
        rw [← ha, ← hb, htag]
      · rw [BitVec.getLsbD_of_ge a _ (by omega), BitVec.getLsbD_of_ge b _ (by omega)]

/-! ## The lines of a run -/

section Run

variable (inputs : ℕ → Input)

open Cse502.Warmup.System (run twin_run)

/-- The lines at the start. -/
def zeroLines : Index → Line Addr State Block := fun _ ↦ ⟨0, 0, 0⟩

/-- The operations of the requests that are accepted. -/
def history (n : ℕ) : Option (Op Index Addr State Block) :=
  if (run inputs n).cache.nxt.portAvailable then (inputs n).request.map Request.op else none

variable {inputs}

theorem Accepts.history_eq {n : ℕ} {r : Request} (h : Accepts inputs n r) :
    history inputs n = some r.op := by
  rw [history, if_pos h.1, h.2]
  rfl

theorem exists_accepts {n : ℕ} {op : Op Index Addr State Block} (h : history inputs n = some op) :
    ∃ r, Accepts inputs n r ∧ r.op = op := by
  rw [history] at h
  split_ifs at h with hport
  obtain ⟨r, hr, hop⟩ := Option.map_eq_some_iff.mp h
  exact ⟨r, ⟨hport, hr⟩, hop⟩

/-- What holds of the lines in every cycle: an idle cache has those of the storage, and a request
that is being served is already part of the history. -/
private structure LinesAt (inputs : ℕ → Input) (n : ℕ) : Prop where
  idle : (run inputs n).cache.Idle →
    (run inputs n).lines = DirectMapped.contents zeroLines (history inputs) n
  serving : ∀ n₀ m r, Accepts inputs n₀ r → Served inputs n₀ m r → n₀ < n → n ≤ m →
    DirectMapped.contents zeroLines (history inputs) n =
      DirectMapped.apply (run inputs n₀).lines r.op

private theorem LinesAt.next {n : ℕ} (h : LinesAt inputs n) : LinesAt inputs (n + 1) := by
  by_cases hidle : (run inputs n).cache.Idle
  · -- a request that is being served and an idle cache exclude each other
    have hnot : ∀ n₀ m r, Served inputs n₀ m r → n₀ < n → ¬n + 1 ≤ m := by
      intro n₀ m r hserved hn₀ hm
      exact absurd (hidle.portAvailable.symm.trans (hserved.busy n hn₀ hm).1) Bool.noConfusion
    cases hreq : (inputs n).request with
    | none =>
      have hnone : history inputs n = none := by
        rw [history, hreq, Option.map_none, ite_self]
      obtain ⟨-, -, hlines⟩ := System.quiet_cycle (inputs n) hidle hreq
      constructor
      · intro _
        rw [DirectMapped.contents_succ_of_none hnone, ← h.idle hidle]
        exact hlines
      · intro n₀ m r haccepts hserved hn₀ hm
        rcases Nat.lt_succ_iff_lt_or_eq.mp hn₀ with hlt | rfl
        · exact absurd hm (hnot n₀ m r hserved hlt)
        · exact absurd (haccepts.2.symm.trans hreq) (Option.some_ne_none r)
    | some r =>
      -- the request joins the history before its lines are written
      have haccepts : Accepts inputs n r := ⟨hidle.portAvailable, hreq⟩
      obtain ⟨hserving, -, -⟩ := System.accept_cycle (inputs n) hidle hreq
      constructor
      · intro hidle'
        exact absurd (hidle'.portAvailable.symm.trans hserving.portAvailable) Bool.noConfusion
      · intro n₀ m r' haccepts' hserved hn₀ hm
        rcases Nat.lt_succ_iff_lt_or_eq.mp hn₀ with hlt | rfl
        · exact absurd hm (hnot n₀ m r' hserved hlt)
        · obtain rfl := Option.some.inj (hreq.symm.trans haccepts'.2)
          rw [DirectMapped.contents_succ_of_some haccepts.history_eq, h.idle hidle]
  · cases phase inputs n with
    | quiet hidle' _ => exact absurd hidle' hidle
    | answer _ _ _ hserved => exact absurd hserved.idle hidle
    | serving n₀ m r haccepts hserved hn₀ hm =>
      have hnone : history inputs n = none := by
        rw [history, (hserved.busy n hn₀ hm).1]
        rfl
      have hcontents := h.serving n₀ m r haccepts hserved hn₀ hm.le
      constructor
      · intro hidle'
        rw [DirectMapped.contents_succ_of_none hnone, hcontents]
        rcases Nat.lt_or_ge (n + 1) m with hlt | hge
        · exact absurd (hidle'.portAvailable.symm.trans
            (hserved.busy (n + 1) (Nat.lt_succ_of_lt hn₀) hlt).1) Bool.noConfusion
        · obtain rfl : n + 1 = m := by omega
          exact hserved.lines
      · intro n₀' m' r' haccepts' hserved' hn₀' hm'
        rw [DirectMapped.contents_succ_of_none hnone]
        rcases Nat.lt_succ_iff_lt_or_eq.mp hn₀' with hlt | rfl
        · exact h.serving n₀' m' r' haccepts' hserved' hlt (by omega)
        · exact absurd haccepts'.idle hidle

private theorem linesAt (inputs : ℕ → Input) (n : ℕ) : LinesAt inputs n := by
  induction n with
  | zero => exact ⟨fun _ ↦ rfl, fun n₀ _ _ _ _ hn₀ ↦ absurd hn₀ (Nat.not_lt_zero n₀)⟩
  | succ n ih => exact ih.next

/-- **The cache is a direct-mapped storage.** When a request is accepted, the lines are those the
requests accepted before have left. -/
theorem Accepts.lines {n : ℕ} {r : Request} (h : Accepts inputs n r) :
    (run inputs n).lines = DirectMapped.contents zeroLines (history inputs) n :=
  (linesAt inputs n).idle h.idle

/-! ## What a read returns -/

variable (inputs)

/-- The tag comparison for the request accepted in cycle `n` succeeds. -/
def HitAt (n : ℕ) (a : Addr) : Prop := (run inputs (n + 2)).TagMatches a

/-- In cycle `n` data is accepted for the block of `a`: an insert, or a write that hits. -/
def StoresData (n : ℕ) (a : Addr) (d : Block) : Prop :=
  ∃ r, Accepts inputs n r ∧ SameBlock r.addr a ∧ match r with
    | .insert _ _ d' => d' = d
    | .write _ _ d' => d' = d ∧ HitAt inputs n r.addr
    | .read _ | .update _ _ => False

/-- In cycle `n` a state is accepted for the block of `a`: an insert, or a write or update that
hits. -/
def StoresState (n : ℕ) (a : Addr) (s : State) : Prop :=
  ∃ r, Accepts inputs n r ∧ SameBlock r.addr a ∧ match r with
    | .insert _ s' _ => s' = s
    | .write _ s' _ | .update _ s' => s' = s ∧ HitAt inputs n r.addr
    | .read _ => False

variable {inputs}

/-- The comparison finds the block exactly if it is in its line. -/
theorem Accepts.hitAt_iff {n : ℕ} {r : Request} (h : Accepts inputs n r)
    (hins : ∀ a s d, r ≠ .insert a s d) :
    HitAt inputs n r.addr ↔
      (DirectMapped.contents zeroLines (history inputs) n (indexOf r.addr)).tag = tagOf r.addr := by
  obtain ⟨m, hserved⟩ := h.served
  rw [HitAt, hserved.probe hins, Request.Hits, h.lines]

theorem storesData_iff {n : ℕ} {a : Addr} {d : Block} :
    StoresData inputs n a d ↔ ∃ op, history inputs n = some op ∧
      DirectMapped.StoresData (DirectMapped.contents zeroLines (history inputs) n)
        (indexOf a) (tagOf a) d op := by
  constructor
  · rintro ⟨r, haccepts, hblock, hr⟩
    obtain ⟨hindex, htag⟩ := (sameBlock_iff r.addr a).mp hblock
    refine ⟨r.op, haccepts.history_eq, ?_⟩
    rw [← hindex, ← htag]
    cases r with
    | insert a' s d' => exact ⟨rfl, rfl, hr⟩
    | write a' s d' =>
      exact ⟨rfl, rfl, hr.1, (haccepts.hitAt_iff fun _ _ _ h ↦ Request.noConfusion h).mp hr.2⟩
    | read a' | update a' s => exact hr.elim
  · rintro ⟨op, hop, hstores⟩
    obtain ⟨r, haccepts, rfl⟩ := exists_accepts hop
    refine ⟨r, haccepts, ?_⟩
    cases r with
    | insert a' s d' =>
      obtain ⟨hindex, htag, hd⟩ := hstores
      exact ⟨(sameBlock_iff _ _).mpr ⟨hindex, htag⟩, hd⟩
    | write a' s d' =>
      obtain ⟨hindex, htag, hd, hhit⟩ := hstores
      refine ⟨(sameBlock_iff _ _).mpr ⟨hindex, htag⟩, hd, ?_⟩
      rw [haccepts.hitAt_iff fun _ _ _ h ↦ Request.noConfusion h]
      rw [← hindex, ← htag] at hhit
      exact hhit
    | read a' | update a' s => exact hstores.elim

theorem storesState_iff {n : ℕ} {a : Addr} {s : State} :
    StoresState inputs n a s ↔ ∃ op, history inputs n = some op ∧
      DirectMapped.StoresState (DirectMapped.contents zeroLines (history inputs) n)
        (indexOf a) (tagOf a) s op := by
  constructor
  · rintro ⟨r, haccepts, hblock, hr⟩
    obtain ⟨hindex, htag⟩ := (sameBlock_iff r.addr a).mp hblock
    refine ⟨r.op, haccepts.history_eq, ?_⟩
    rw [← hindex, ← htag]
    cases r with
    | insert a' s' d => exact ⟨rfl, rfl, hr⟩
    | write a' s' d | update a' s' =>
      exact ⟨rfl, rfl, hr.1, (haccepts.hitAt_iff fun _ _ _ h ↦ Request.noConfusion h).mp hr.2⟩
    | read a' => exact hr.elim
  · rintro ⟨op, hop, hstores⟩
    obtain ⟨r, haccepts, rfl⟩ := exists_accepts hop
    refine ⟨r, haccepts, ?_⟩
    cases r with
    | insert a' s' d =>
      obtain ⟨hindex, htag, hs⟩ := hstores
      exact ⟨(sameBlock_iff _ _).mpr ⟨hindex, htag⟩, hs⟩
    | write a' s' d | update a' s' =>
      obtain ⟨hindex, htag, hs, hhit⟩ := hstores
      refine ⟨(sameBlock_iff _ _).mpr ⟨hindex, htag⟩, hs, ?_⟩
      rw [haccepts.hitAt_iff fun _ _ _ h ↦ Request.noConfusion h]
      rw [← hindex, ← htag] at hhit
      exact hhit
    | read a' => exact hstores.elim

/-- The answer to a read, from the lines. -/
theorem Accepts.read_answer {n m : ℕ} {a : Addr} (h : Accepts inputs n (.read a))
    (hm : AnsweredAt inputs n m (.read a)) :
    let l := DirectMapped.contents zeroLines (history inputs) n (indexOf a)
    (run inputs m).cache.nxt.outState = (if l.tag = tagOf a then l.state else 0xff) ∧
      (l.tag = tagOf a → (run inputs m).cache.nxt.outData = l.data) := by
  obtain ⟨m', hserved⟩ := h.served
  obtain rfl := hm.unique hserved.answeredAt
  have hanswers := hserved.answers.outState
  have hdata := hserved.data a rfl
  rw [Request.Hits] at hdata
  rw [h.lines] at hanswers hdata
  exact ⟨hanswers, hdata⟩

/-- **A read returns what was stored last.** A read that is not answered with the miss code returns
the data of the last insert or write that hit, and the state of the last insert, write or update
that hit, among those accepted for its block, whatever was requested for other blocks. -/
theorem read_returns_latest (inputs : ℕ → Input) {n m : ℕ} {a : Addr}
    (h : Accepts inputs n (.read a)) (hm : AnsweredAt inputs n m (.read a))
    (hstate : (run inputs m).cache.nxt.outState ≠ 0xff) :
    (∀ k < n, ∀ d, StoresData inputs k a d →
        (∀ j, k < j → j < n → ∀ d', ¬StoresData inputs j a d') →
        (run inputs m).cache.nxt.outData = d) ∧
      ∀ k < n, ∀ s, StoresState inputs k a s →
        (∀ j, k < j → j < n → ∀ s', ¬StoresState inputs j a s') →
        (run inputs m).cache.nxt.outState = s := by
  obtain ⟨hout, hdata⟩ := h.read_answer hm
  have htag : (DirectMapped.contents zeroLines (history inputs) n (indexOf a)).tag = tagOf a := by
    by_contra htag
    exact hstate (hout.trans (if_neg htag))
  constructor
  · rintro k hkn d hstores hlast
    obtain ⟨op, hop, hstores⟩ := storesData_iff.mp hstores
    rw [hdata htag]
    refine DirectMapped.data_of_latest hop hstores hkn (fun j hkj hjn op' hop' d' h' ↦ ?_) htag
    exact hlast j hkj hjn d' (storesData_iff.mpr ⟨op', hop', h'⟩)
  · rintro k hkn s hstores hlast
    obtain ⟨op, hop, hstores⟩ := storesState_iff.mp hstores
    rw [hout, if_pos htag]
    refine DirectMapped.state_of_latest hop hstores hkn (fun j hkj hjn op' hop' s' h' ↦ ?_) htag
    exact hlast j hkj hjn s' (storesState_iff.mpr ⟨op', hop', h'⟩)

/-- An insert of block `a` and, after its answer, a read. -/
def insertRead (a : Addr) (st : State) (d : Block) : ℕ → Input
  | 0 => ⟨true, a, true, true, d, false, true, st⟩
  | 3 => ⟨true, a, false, false, 0, true, false, 0⟩
  | _ => ⟨false, 0, false, false, 0, false, false, 0⟩

theorem read_returns_latest_insert : (run (insertRead 0x1440 3 7) 6).cache.nxt.outData = 7 := by
  have hread : Accepts (insertRead 0x1440 3 7) 3 (.read 0x1440) := ⟨by decide +kernel, rfl⟩
  have hinsert : Accepts (insertRead 0x1440 3 7) 0 (.insert 0x1440 3 7) := ⟨rfl, rfl⟩
  have hm := (served_read (insertRead 0x1440 3 7) hread.idle hread.2).answeredAt
  refine (read_returns_latest (insertRead 0x1440 3 7) hread hm (by decide +kernel)).1 0
    (by decide) 7 ⟨_, hinsert, rfl, rfl⟩ ?_
  rintro j hj hjn d ⟨r, haccepts, -, -⟩
  have hle :=
    (served_insert (insertRead 0x1440 3 7) hinsert.idle hinsert.2).answeredAt.le_of_accepts
    haccepts hj
  omega

/-! ## Which blocks are found -/

variable (inputs)

/-- In cycle `n` an insert of the block of `a` is accepted. -/
def InsertsBlock (n : ℕ) (a : Addr) : Prop :=
  ∃ a' s d, Accepts inputs n (.insert a' s d) ∧ SameBlock a' a

/-- In cycle `n` an insert of another block with the index of `a` is accepted. -/
def ReplacesBlock (n : ℕ) (a : Addr) : Prop :=
  ∃ a' s d, Accepts inputs n (.insert a' s d) ∧ indexOf a' = indexOf a ∧ ¬SameBlock a' a

/-- The block of `a` has been inserted before cycle `n` and not been replaced since. -/
def Present (n : ℕ) (a : Addr) : Prop :=
  ∃ k < n, InsertsBlock inputs k a ∧ ∀ j, k < j → j < n → ¬ReplacesBlock inputs j a

/-- Some block with the index of `a` has been inserted before cycle `n`. -/
def LineFilled (n : ℕ) (a : Addr) : Prop :=
  ∃ k < n, ∃ a' s d, Accepts inputs k (.insert a' s d) ∧ indexOf a' = indexOf a

variable {inputs}

theorem Accepts.insertedAt {n : ℕ} {a : Addr} {s : State} {d : Block}
    (h : Accepts inputs n (.insert a s d)) :
    DirectMapped.InsertedAt (history inputs) n (indexOf a) (tagOf a) :=
  ⟨_, h.history_eq, s, d, rfl⟩

/-- An insert in the history is one that was accepted. -/
theorem exists_insert {n : ℕ} {i : Index} {t : Addr}
    (h : DirectMapped.InsertedAt (history inputs) n i t) :
    ∃ a s d, Accepts inputs n (.insert a s d) ∧ indexOf a = i ∧ tagOf a = t := by
  obtain ⟨op, hop, s, d, rfl⟩ := h
  obtain ⟨r, haccepts, hr⟩ := exists_accepts hop
  cases r with
  | insert a s' d' =>
    injection hr with hindex htag
    exact ⟨a, s', d', haccepts, hindex, htag⟩
  | read a | write a s' d' | update a s' =>
      exact absurd hr fun h ↦ Op.noConfusion rfl rfl rfl rfl (heq_of_eq h)

theorem present_iff {n : ℕ} {a : Addr} :
    Present inputs n a ↔ DirectMapped.Resident (history inputs) n (indexOf a) (tagOf a) := by
  constructor
  · rintro ⟨k, hkn, ⟨a', s, d, hinsert, hblock⟩, hlast⟩
    obtain ⟨hindex, htag⟩ := (sameBlock_iff a' a).mp hblock
    refine ⟨k, hkn, ?_, fun j hkj hjn t' ht' ↦ ?_⟩
    · rw [← hindex, ← htag]
      exact hinsert.insertedAt
    · obtain ⟨b, s', d', hinsert', hindex', rfl⟩ := exists_insert ht'
      by_contra htag'
      exact hlast j hkj hjn ⟨b, s', d', hinsert', hindex',
        fun hblock' ↦ htag' ((sameBlock_iff b a).mp hblock').2⟩
  · rintro ⟨k, hkn, hk, hlast⟩
    obtain ⟨a', s, d, hinsert, hindex, htag⟩ := exists_insert hk
    refine ⟨k, hkn, ⟨a', s, d, hinsert, (sameBlock_iff a' a).mpr ⟨hindex, htag⟩⟩, ?_⟩
    rintro j hkj hjn ⟨b, s', d', hinsert', hindex', hblock'⟩
    refine hblock' ((sameBlock_iff b a).mpr ⟨hindex', hlast j hkj hjn (tagOf b) ?_⟩)
    rw [← hindex']
    exact hinsert'.insertedAt

theorem lineFilled_iff {n : ℕ} {a : Addr} :
    LineFilled inputs n a ↔ DirectMapped.Filled (history inputs) n (indexOf a) := by
  constructor
  · rintro ⟨k, hkn, a', s, d, hinsert, hindex⟩
    refine ⟨k, hkn, tagOf a', ?_⟩
    rw [← hindex]
    exact hinsert.insertedAt
  · rintro ⟨k, hkn, t, hk⟩
    obtain ⟨a', s, d, hinsert, hindex, -⟩ := exists_insert hk
    exact ⟨k, hkn, a', s, d, hinsert, hindex⟩

/-- **Which blocks are found**: those present, and before the first insert at an index the block
with the tag of the cleared arrays. -/
theorem Accepts.hitAt_iff_present {n : ℕ} {r : Request} (h : Accepts inputs n r)
    (hins : ∀ a s d, r ≠ .insert a s d) :
    HitAt inputs n r.addr ↔
      Present inputs n r.addr ∨ (¬LineFilled inputs n r.addr ∧ tagOf r.addr = 0) := by
  rw [h.hitAt_iff hins, DirectMapped.tag_contents_eq_iff, present_iff, lineFilled_iff]
  exact or_congr_right (and_congr_right fun _ ↦ eq_comm)

/-! ### Two blocks of one index -/

/-- **The second of two blocks of one index replaces the first**, in every run: reads of the first
miss until it is inserted again. -/
theorem first_block_missed (inputs : ℕ → Input) {j n m : ℕ} {a b : Addr}
    (hb : InsertsBlock inputs j b) (hjn : j < n) (hindex : indexOf b = indexOf a)
    (hblock : ¬SameBlock b a)
    (hlast : ∀ k, j < k → k < n → ¬InsertsBlock inputs k a) (h : Accepts inputs n (.read a))
    (hm : AnsweredAt inputs n m (.read a)) :
    ¬HitAt inputs n a ∧ (run inputs m).cache.nxt.outState = 0xff := by
  obtain ⟨b', s, d, hinsert, hb'⟩ := hb
  have hindex' : indexOf b' = indexOf a := ((sameBlock_iff b' b).mp hb').1.trans hindex
  have hblock' : ¬SameBlock b' a := fun h' ↦ hblock (hb'.symm.trans h')
  have hread : ∀ a' s d, Request.read a ≠ .insert a' s d := fun _ _ _ h ↦ Request.noConfusion h
  have hmiss : ¬HitAt inputs n a := by
    rw [show HitAt inputs n a ↔ _ from h.hitAt_iff_present hread]
    rintro (⟨k, hkn, hk, hlast'⟩ | ⟨hfilled, -⟩)
    · -- the last insert of `a` is before that of `b`
      rcases Nat.lt_trichotomy k j with hlt | rfl | hlt
      · exact hlast' j hlt hjn ⟨b', s, d, hinsert, hindex', hblock'⟩
      · obtain ⟨a', s', d', hinsert', ha'⟩ := hk
        obtain ⟨rfl, -, -⟩ := Request.insert.inj (Option.some.inj (hinsert.2.symm.trans hinsert'.2))
        exact hblock' ha'
      · exact hlast k hlt hkn hk
    · exact hfilled ⟨j, hjn, b', s, d, hinsert, hindex'⟩
  refine ⟨hmiss, ?_⟩
  rw [show HitAt inputs n a ↔ _ from h.hitAt_iff hread] at hmiss
  exact (h.read_answer hm).1.trans (if_neg hmiss)

/-- Two inserts, and a read of the first block. -/
def insertInsertRead (a b : Addr) : ℕ → Input
  | 0 => ⟨true, a, true, true, 7, false, true, 3⟩
  | 3 => ⟨true, b, true, true, 8, false, true, 3⟩
  | 6 => ⟨true, a, false, false, 0, true, false, 0⟩
  | _ => ⟨false, 0, false, false, 0, false, false, 0⟩

theorem first_block_missed_0x400 :
    ¬HitAt (insertInsertRead 0x400 0x800) 6 0x400 ∧
      (run (insertInsertRead 0x400 0x800) 9).cache.nxt.outState = 0xff := by
  have hread : Accepts (insertInsertRead 0x400 0x800) 6 (.read 0x400) := ⟨by decide +kernel, rfl⟩
  have hsecond : Accepts (insertInsertRead 0x400 0x800) 3 (.insert 0x800 3 8) :=
    ⟨by decide +kernel, rfl⟩
  refine first_block_missed _ ⟨_, _, _, hsecond, rfl⟩ (by decide) rfl (by decide) ?_ hread
    (served_read _ hread.idle hread.2).answeredAt
  rintro k hk hkn ⟨a, s, d, haccepts, -⟩
  have hle := (served_insert _ hsecond.idle hsecond.2).answeredAt.le_of_accepts haccepts hk
  omega

/-- Two blocks of one index are not both found. -/
theorem not_both_found :
    let inputs := insertInsertRead 0x400 0x800
    Accepts inputs 0 (.insert 0x400 3 7) ∧ Accepts inputs 3 (.insert 0x800 3 8) ∧
      indexOf 0x400 = indexOf 0x800 ∧ ¬SameBlock 0x400 0x800 ∧
      Accepts inputs 6 (.read 0x400) ∧ (run inputs 9).cache.nxt.outReady = true ∧
      (run inputs 9).cache.nxt.outToken = 0x400 ∧ (run inputs 9).cache.nxt.outState = 0xff :=
  ⟨⟨rfl, rfl⟩, ⟨by decide +kernel, rfl⟩, rfl, by decide, ⟨by decide +kernel, rfl⟩,
    by decide +kernel, by decide +kernel, by decide +kernel⟩

/-! ### Blocks that are not present -/

/-- The three arrays of a set. -/
def Way.lines (w : Way) : Index → Line Addr State Block :=
  fun i ↦ ⟨w.tag.data i, w.state.data i, w.data.data i⟩

variable (inputs)

/-- The request accepted in cycle `n` and answered in cycle `m` gets the miss code and leaves all
six arrays as they were. -/
def AnsweredAsMiss (n m : ℕ) : Prop :=
  (run inputs m).cache.nxt.outState = 0xff ∧
    (run inputs m).set1.lines = (run inputs n).set1.lines ∧
    (run inputs m).set2.lines = (run inputs n).set2.lines

variable {inputs}

/-- A hit that is answered and leaves the line as a miss does. -/
def Request.LikeMiss (l : Line Addr State Block) : Request → Prop
  | insert _ _ _ => False
  | read _ => l.state = 0xff
  | write _ s d => s = 0xff ∧ l.state = s ∧ l.data = d
  | update _ s => s = 0xff ∧ l.state = s

/-- The arrays of both sets are those of the lines. -/
theorem answeredAsMiss_iff_lines {n m : ℕ} : AnsweredAsMiss inputs n m ↔
    (run inputs m).cache.nxt.outState = 0xff ∧ (run inputs m).lines = (run inputs n).lines := by
  rw [AnsweredAsMiss, (twin_run inputs m).set2, (twin_run inputs n).set2, and_self]
  rfl

/-- A request that misses is answered as one. -/
theorem Request.missed {lines : Index → Line Addr State Block} {r : Request}
    (hins : ∀ a s d, r ≠ .insert a s d) (hmiss : ¬r.Hits lines) :
    r.answerState lines = 0xff ∧ DirectMapped.apply lines r.op = lines := by
  cases r with
  | insert a s d => exact absurd rfl (hins a s d)
  | read a => exact ⟨if_neg hmiss, rfl⟩
  | write a s d | update a s => exact ⟨if_neg hmiss, if_neg hmiss⟩

/-- A request that hits can look like one that misses. -/
theorem Request.likeMiss_iff {lines : Index → Line Addr State Block} {r : Request}
    (hins : ∀ a s d, r ≠ .insert a s d) (hhit : r.Hits lines) :
    r.answerState lines = 0xff ∧ DirectMapped.apply lines r.op = lines ↔
      r.LikeMiss (lines (indexOf r.addr)) := by
  cases r with
  | insert a s d => exact absurd rfl (hins a s d)
  | read a =>
    have htag : (lines (indexOf a)).tag = tagOf a := hhit
    rw [answerState, if_pos htag]
    exact and_iff_left rfl
  | write a s d =>
    have htag : (lines (indexOf a)).tag = tagOf a := hhit
    rw [answerState, if_pos htag, op, DirectMapped.apply, if_pos htag, Function.update_eq_self_iff]
    refine and_congr_right fun _ ↦ ?_
    rw [DirectMapped.Line.ext_iff]
    exact ⟨fun h ↦ ⟨h.2.1.symm, h.2.2.symm⟩, fun h ↦ ⟨htag.symm, h.1.symm, h.2.symm⟩⟩
  | update a s =>
    have htag : (lines (indexOf a)).tag = tagOf a := hhit
    rw [answerState, if_pos htag, op, DirectMapped.apply, if_pos htag, Function.update_eq_self_iff]
    refine and_congr_right fun _ ↦ ?_
    rw [DirectMapped.Line.ext_iff]
    exact ⟨fun h ↦ h.2.1.symm, fun h ↦ ⟨htag.symm, h.symm, rfl⟩⟩

/-- **When a block that is not present is answered as missing**: unless its tag is that of the
cleared arrays and nothing was inserted at its index yet. -/
theorem answeredAsMiss_iff (inputs : ℕ → Input) {n m : ℕ} {r : Request} (h : Accepts inputs n r)
    (hins : ∀ a s d, r ≠ .insert a s d) (habsent : ¬Present inputs n r.addr)
    (hm : AnsweredAt inputs n m r) :
    AnsweredAsMiss inputs n m ↔ tagOf r.addr ≠ 0 ∨ LineFilled inputs n r.addr ∨
      r.LikeMiss ((run inputs n).lines (indexOf r.addr)) := by
  obtain ⟨m', hserved⟩ := h.served
  obtain rfl := hm.unique hserved.answeredAt
  rw [answeredAsMiss_iff_lines, hserved.answers.outState, hserved.lines]
  have hfound : r.Hits (run inputs n).lines ↔ ¬LineFilled inputs n r.addr ∧ tagOf r.addr = 0 := by
    rw [← hserved.probe hins]
    exact (h.hitAt_iff_present hins).trans (or_iff_right habsent)
  by_cases hhit : r.Hits (run inputs n).lines
  · obtain ⟨hfilled, htag⟩ := hfound.mp hhit
    rw [Request.likeMiss_iff hins hhit, or_iff_right (not_not.mpr htag), or_iff_right hfilled]
  · refine iff_of_true (Request.missed hins hhit) ?_
    rw [hfound, not_and_or, not_not] at hhit
    rcases hhit with hfilled | htag
    · exact .inr (.inl hfilled)
    · exact .inl htag

/-- A read in the first cycle. -/
def readFirst (a : Addr) : ℕ → Input
  | 0 => ⟨true, a, false, false, 0, true, false, 0⟩
  | _ => ⟨false, 0, false, false, 0, false, false, 0⟩

theorem not_present_zero (a : Addr) : ¬Present inputs 0 a :=
  fun ⟨k, hk, _⟩ ↦ absurd hk (Nat.not_lt_zero k)

theorem answeredAsMiss_0x400 : AnsweredAsMiss (readFirst 0x400) 0 3 := by
  have hread : Accepts (readFirst 0x400) 0 (.read 0x400) := ⟨rfl, rfl⟩
  refine (answeredAsMiss_iff _ hread (fun _ _ _ h ↦ Request.noConfusion h)
    (not_present_zero 0x400) (served_read _ hread.idle hread.2).answeredAt).mpr (.inl ?_)
  decide

/-- A block that was never inserted is found. -/
theorem not_answeredAsMiss_0x40 :
    let inputs := readFirst 0x40
    Accepts inputs 0 (.read 0x40) ∧ ¬Present inputs 0 0x40 ∧ AnsweredAt inputs 0 3 (.read 0x40) ∧
      ¬AnsweredAsMiss inputs 0 3 := by
  refine ⟨⟨rfl, rfl⟩, not_present_zero 0x40,
    ⟨by decide, by decide +kernel, by decide +kernel, ?_⟩, ?_⟩
  · intro k hk hk3
    obtain rfl | rfl : k = 1 ∨ k = 2 := by omega
    · exact ⟨by decide +kernel, by decide +kernel⟩
    · exact ⟨by decide +kernel, by decide +kernel⟩
  · rintro ⟨hstate, -⟩
    exact absurd hstate (by decide +kernel)

end Run

end Cse502.Warmup
