import Cse502.Warmup.Contents

/-!
# What the warm-up cache does of what is asked

The interface gives every flag of a request a meaning of its own, and every output one. Two places
where the cache does less: an insert overwrites the line before anything of it is read, so its
answer says what some earlier request left in `temptag` and the state that was just written; and
the flags are told apart by a chain of tests that ends in one of four operations, so an effect that
is not part of the operation chosen is left out, and a request for which none is chosen is never
answered.
-/

namespace Cse502.Warmup

open DirectMapped (Line Op)
open Cse502.Warmup.System (run twin_run)

/-! ## The sets -/

/-- The SRAMs of the set that a value of `set` stands for. -/
def System.way (set : Bool) (s : System) : Way := if set then s.set2 else s.set1

/-- Both sets hold the same lines. -/
theorem System.Twin.way_lines {s : System} (h : s.Twin) (set : Bool) :
    (s.way set).lines = s.lines := by
  rw [System.way, h.set2, ite_self]
  rfl

/-! ## The answer to an insert -/

section Insert

variable {c : Cache} {r : Request}

/-- The members an insert is answered from. -/
structure Cache.SameTags (c c' : Cache) : Prop where
  temptag : c'.temptag = c.temptag
  set : c'.set = c.set

theorem Cache.accept_sameTags (inp : Input) (c : Cache) : c.SameTags (c.accept inp) := by
  rw [accept]
  split_ifs <;> exact ⟨rfl, rfl⟩

/-- An idle cache keeps them, with a request or without. -/
theorem Cache.Idle.sameTags (h : c.Idle) (inp : Input) : c.SameTags (c.work inp c.nxt) := by
  rw [h.work inp]
  split_ifs
  · obtain ⟨htemptag, hset⟩ := c.cleared.accept_sameTags inp
    exact ⟨htemptag, hset⟩
  · exact ⟨rfl, rfl⟩

theorem Cache.Serving.sameTags {opstate : OpState} (h : c.Serving r opstate 1) (inp : Input) :
    c.SameTags (c.work inp c.nxt) := by
  have hdeassert : c.deassert = c := by
    rw [deassert, if_neg (by rw [h.deassertoutput]; exact Bool.false_ne_true)]
  have hwait : 0 < c.waitdelay := by rw [h.waitdelay]; exact Nat.one_pos
  rw [Cache.work, hdeassert, if_pos hwait]
  exact ⟨rfl, rfl⟩

/-- The address of the answer to an insert. -/
theorem Cache.Serving.outAddr {a : Addr} {st : State} {d : Block} {opstate : OpState}
    (h : c.Serving (.insert a st d) opstate 0) (inp : Input) :
    (c.work inp c.nxt).nxt.outAddr = c.temptag c.set := by
  rw [h.work inp, finish_of_insert h.operation]
  rfl

variable {inputs : ℕ → Input} {n : ℕ} {a : Addr} {st : State} {d : Block}

/-- **The answer to an insert** names the tag that was in `temptag` when it was accepted. -/
theorem Accepts.insert_outAddr (h : Accepts inputs n (.insert a st d)) :
    (run inputs (n + 3)).cache.nxt.outAddr =
      (run inputs n).cache.temptag (run inputs n).cache.set := by
  obtain ⟨⟨hserving1, -⟩, hserving2, -, -⟩ := first_phase inputs h.idle h.2
  obtain ⟨htags1, hset1⟩ := h.idle.sameTags (inputs n)
  obtain ⟨htags2, hset2⟩ := hserving1.sameTags (inputs (n + 1))
  have hout := hserving2.outAddr (inputs (n + 2))
  change (run inputs (n + 1)).cache.temptag = _ at htags1
  change (run inputs (n + 1)).cache.set = _ at hset1
  change (run inputs (n + 2)).cache.temptag = _ at htags2
  change (run inputs (n + 2)).cache.set = _ at hset2
  rw [htags2, hset2, htags1, hset1] at hout
  exact hout

variable (inputs n)

/-- What the insert accepted in cycle `n` replaces: the line of its index in the chosen set. -/
def victim (a : Addr) : Line Addr State Block :=
  ((run inputs n).way (run inputs n).cache.set).lines (indexOf a)

/-- The answer in cycle `m` names the victim. -/
def NamesVictim (m : ℕ) (a : Addr) : Prop :=
  (run inputs m).cache.nxt.outAddr = (victim inputs n a).tag ∧
    (run inputs m).cache.nxt.outState = (victim inputs n a).state

variable {inputs n}

/-- **When the answer to an insert names the victim.** In every run, exactly when `temptag` of the
chosen set happens to hold the victim's tag already and the new state is the victim's. -/
theorem insert_namesVictim_iff {m : ℕ} (h : Accepts inputs n (.insert a st d))
    (hm : AnsweredAt inputs n m (.insert a st d)) :
    NamesVictim inputs n m a ↔
      (run inputs n).cache.temptag (run inputs n).cache.set = (victim inputs n a).tag ∧
        st = (victim inputs n a).state := by
  have hserved := served_insert inputs h.idle h.2
  obtain rfl := hm.unique hserved.answeredAt
  rw [NamesVictim, h.insert_outAddr, hserved.answers.outState]
  rfl

/-- Two inserts at one index, and a read of the first block between them. -/
def insertReadInsert : ℕ → Input
  | 0 => ⟨true, 0x400, true, true, 7, false, true, 3⟩
  | 3 => ⟨true, 0x400, false, false, 0, true, false, 0⟩
  | 6 => ⟨true, 0x800, true, true, 8, false, true, 3⟩
  | _ => ⟨false, 0, false, false, 0, false, false, 0⟩

/-- The read leaves the tag of the victim in `temptag`, and the states are the same. -/
theorem insert_namesVictim_read :
    (victim insertReadInsert 6 0x800).tag = 0x400 ∧ (victim insertReadInsert 6 0x800).state = 3 ∧
      NamesVictim insertReadInsert 6 9 0x800 := by
  have hinsert : Accepts insertReadInsert 6 (.insert 0x800 3 8) := ⟨by decide +kernel, rfl⟩
  have hanswered := (served_insert _ hinsert.idle hinsert.2).answeredAt
  refine ⟨by decide +kernel, by decide +kernel, (insert_namesVictim_iff hinsert hanswered).mpr ?_⟩
  exact ⟨by decide +kernel, by decide +kernel⟩

/-- Two inserts at one index. -/
def insertTwice : ℕ → Input
  | 0 => ⟨true, 0x400, true, true, 7, false, true, 3⟩
  | 3 => ⟨true, 0x800, true, true, 8, false, true, 5⟩
  | _ => ⟨false, 0, false, false, 0, false, false, 0⟩

/-- The second is answered with neither the tag nor the state of the first. -/
theorem not_namesVictim_second :
    Accepts insertTwice 3 (.insert 0x800 5 8) ∧
      AnsweredAt insertTwice 3 6 (.insert 0x800 5 8) ∧
      (victim insertTwice 3 0x800).tag = 0x400 ∧ (victim insertTwice 3 0x800).state = 3 ∧
      (run insertTwice 6).cache.nxt.outAddr = 0 ∧ (run insertTwice 6).cache.nxt.outState = 5 ∧
      ¬NamesVictim insertTwice 3 6 0x800 := by
  have hsecond : Accepts insertTwice 3 (.insert 0x800 5 8) := ⟨by decide +kernel, rfl⟩
  refine ⟨hsecond, (served_insert _ hsecond.idle hsecond.2).answeredAt, by decide +kernel,
    by decide +kernel, by decide +kernel, by decide +kernel, ?_⟩
  rintro ⟨haddr, -⟩
  exact absurd haddr (by decide +kernel)

end Insert

/-! ## The effects of a request -/

section Effects

variable (inputs : ℕ → Input) (n m : ℕ)

/-- The line of an address in one of the sets. -/
def lineAt (set : Bool) (a : Addr) : Line Addr State Block :=
  ((run inputs n).way set).lines (indexOf a)

/-- The pulse of `out_ready` in cycle `m` replies to the request made in cycle `n`. -/
structure RepliesTo : Prop where
  lt : n < m
  outReady : (run inputs m).cache.nxt.outReady = true
  outToken : (run inputs m).cache.nxt.outToken = (inputs n).addr
  busy : ∀ k, n < k → k < m → (run inputs k).cache.nxt.portAvailable = false ∧
    (run inputs k).cache.nxt.outReady = false

/-- Every effect whose flag was set in cycle `n` has taken place by cycle `m`: some set holds the
block, with the data and the state that were given, and the data returned is its data. -/
def EffectsBy : Prop :=
  ∃ set, let l := lineAt inputs m set (inputs n).addr
    l.tag = tagOf (inputs n).addr ∧
      ((inputs n).hasData = true → l.data = (inputs n).data) ∧
      ((inputs n).needsData = true → (run inputs m).cache.nxt.outData = l.data) ∧
      ((inputs n).updateState = true → l.state = (inputs n).newState)

/-- The request made in cycle `n` is an insert, or some set holds its block. -/
def InsertOrHit : Prop :=
  (inputs n).isInsert = true ∨
    ∃ set, (lineAt inputs n set (inputs n).addr).tag = tagOf (inputs n).addr

/-- The request made in cycle `n` is replied to, and on a hit or insert has every effect asked. -/
def EffectsHappen : Prop :=
  ∃ m, RepliesTo inputs n m ∧ (InsertOrHit inputs n → EffectsBy inputs n m)

/-- The requests that one operation is enough for, with the line of their index: some operation is
chosen, an insert brings data or finds its block there, and a read that is to store a state finds
it stored already. -/
structure Handled (inp : Input) (l : Line Addr State Block) : Prop where
  chosen : inp.needsData = true ∨ inp.updateState = true
  insert : inp.isInsert = true → inp.hasData = true ∨ l.tag = tagOf inp.addr
  state : inp.needsData = true → inp.updateState = true → l.tag = tagOf inp.addr →
    l.state = inp.newState

variable {inputs n m}

/-- Either set is the first. -/
theorem lineAt_eq (set : Bool) (a : Addr) :
    lineAt inputs n set a = (run inputs n).lines (indexOf a) :=
  congrFun ((twin_run inputs n).way_lines set) (indexOf a)

theorem insertOrHit_iff : InsertOrHit inputs n ↔ (inputs n).isInsert = true ∨
    ((run inputs n).lines (indexOf (inputs n).addr)).tag = tagOf (inputs n).addr := by
  simp only [InsertOrHit, lineAt_eq, exists_const]

theorem effectsBy_iff : EffectsBy inputs n m ↔
    let l := (run inputs m).lines (indexOf (inputs n).addr)
    l.tag = tagOf (inputs n).addr ∧
      ((inputs n).hasData = true → l.data = (inputs n).data) ∧
      ((inputs n).needsData = true → (run inputs m).cache.nxt.outData = l.data) ∧
      ((inputs n).updateState = true → l.state = (inputs n).newState) := by
  simp only [EffectsBy, lineAt_eq, exists_const]

/-- A cache whose port is available is idle. -/
theorem idle_of_available (hport : (run inputs n).cache.nxt.portAvailable = true) :
    (run inputs n).cache.Idle := by
  cases phase inputs n with
  | quiet hidle _ => exact hidle
  | answer _ _ _ hserved => exact hserved.idle
  | serving n₀ m _ _ hserved hn₀ hm =>
    exact absurd (hport.symm.trans (hserved.busy n hn₀ hm).1) Bool.noConfusion

/-- Inputs that choose no operation are not replied to. -/
theorem not_repliesTo_of_none (hport : (run inputs n).cache.nxt.portAvailable = true)
    (hreq : (inputs n).request = none) : ¬RepliesTo inputs n m := by
  intro h
  obtain ⟨hidle, hready, -⟩ := System.quiet_cycle (inputs n) (idle_of_available hport) hreq
  have hlt := h.lt
  rcases Nat.lt_or_ge (n + 1) m with hlt' | hge
  · exact absurd (hidle.portAvailable.symm.trans (h.busy (n + 1) (Nat.lt_succ_self n) hlt').1)
      Bool.noConfusion
  · obtain rfl : m = n + 1 := by omega
    exact absurd (h.outReady.symm.trans hready) Bool.noConfusion

theorem Input.request_addr {inp : Input} {r : Request} (h : inp.request = some r) :
    r.addr = inp.addr := by
  rw [Input.request] at h
  split_ifs at h <;> obtain rfl := Option.some.inj h <;> rfl

/-- A reply is the answer to the request. -/
theorem repliesTo_iff {r : Request} (hreq : (inputs n).request = some r) :
    RepliesTo inputs n m ↔ AnsweredAt inputs n m r := by
  have haddr := Input.request_addr hreq
  constructor
  · exact fun h ↦ ⟨h.lt, h.outReady, h.outToken.trans haddr.symm, h.busy⟩
  · exact fun h ↦ ⟨h.lt, h.outReady, h.outToken.trans haddr, h.busy⟩

/-- What is asked of an accepted request is asked at its answer. -/
theorem effectsHappen_iff_of_served {r : Request} (hreq : (inputs n).request = some r)
    (hserved : Served inputs n m r) :
    EffectsHappen inputs n ↔ (InsertOrHit inputs n → EffectsBy inputs n m) := by
  constructor
  · rintro ⟨m', hreplies, heffects⟩
    obtain rfl := ((repliesTo_iff hreq).mp hreplies).unique hserved.answeredAt
    exact heffects
  · exact fun h ↦ ⟨m, (repliesTo_iff hreq).mpr hserved.answeredAt, h⟩

/-- **When every requested effect happens**, in every run and for every combination of the flags. -/
theorem effectsHappen_iff (inputs : ℕ → Input) (n : ℕ)
    (hport : (run inputs n).cache.nxt.portAvailable = true) (hena : (inputs n).ena = true)
    (hflags : ¬((inputs n).hasData = true ∧ (inputs n).needsData = true)) :
    EffectsHappen inputs n ↔
      Handled (inputs n) (lineAt inputs n (run inputs n).cache.set (inputs n).addr) := by
  rw [lineAt_eq]
  have hidle := idle_of_available hport
  cases hreq : (inputs n).request with
  | none =>
    refine iff_of_false (fun ⟨m, h, _⟩ ↦ not_repliesTo_of_none hport hreq h) fun h ↦ ?_
    rw [Input.request, hena, Bool.not_true, if_neg Bool.false_ne_true] at hreq
    split_ifs at hreq with _ hneeds _ hupdate
    exact h.chosen.elim hneeds hupdate
  | some r =>
    obtain ⟨m, hserved⟩ := exists_served inputs hidle hreq
    have hlines := hserved.lines
    rw [effectsHappen_iff_of_served hreq hserved, insertOrHit_iff, effectsBy_iff]
    rw [Input.request, hena, Bool.not_true, if_neg Bool.false_ne_true] at hreq
    split_ifs at hreq with hinsert hneeds hwrite hupdate
    · -- an insert with everything it can have
      obtain rfl := Option.some.inj hreq
      simp only [Bool.and_eq_true] at hinsert
      refine iff_of_true (fun _ ↦ ?_) ⟨.inr hinsert.2, fun _ ↦ .inl hinsert.1.2, fun h ↦
        absurd ⟨hinsert.1.2, h⟩ hflags⟩
      rw [hlines, Request.op, DirectMapped.apply, Function.update_self]
      exact ⟨rfl, fun _ ↦ rfl, fun h ↦ absurd ⟨hinsert.1.2, h⟩ hflags, fun _ ↦ rfl⟩
    · -- a read, which leaves out an insert and a new state
      obtain rfl := Option.some.inj hreq
      have hdata : ¬(inputs n).hasData = true := fun h ↦ hflags ⟨h, hneeds⟩
      have hsame : (run inputs m).lines = (run inputs n).lines := hlines
      rw [hsame]
      constructor
      · intro h
        exact ⟨.inl hneeds, fun hI ↦ .inr (h (.inl hI)).1, fun _ hU htag ↦
          (h (.inr htag)).2.2.2 hU⟩
      · intro h hwanted
        have htag := hwanted.elim (fun hI ↦ (h.insert hI).resolve_left hdata) id
        exact ⟨htag, fun hH ↦ absurd hH hdata, fun _ ↦ hserved.data _ rfl htag,
          fun hU ↦ h.state hneeds hU htag⟩
    · -- a write
      obtain rfl := Option.some.inj hreq
      simp only [Bool.and_eq_true] at hinsert hwrite
      have hI : ¬(inputs n).isInsert = true := fun hI ↦ hinsert ⟨⟨hI, hwrite.1⟩, hwrite.2⟩
      refine iff_of_true (fun hwanted ↦ ?_) ⟨.inr hwrite.2, fun h ↦ absurd h hI, fun h ↦
        absurd h hneeds⟩
      rw [hlines, Request.op, DirectMapped.apply, if_pos (hwanted.resolve_left hI),
        Function.update_self]
      exact ⟨rfl, fun _ ↦ rfl, fun h ↦ absurd h hneeds, fun _ ↦ rfl⟩
    · -- an update, which leaves out an insert
      obtain rfl := Option.some.inj hreq
      have hdata : ¬(inputs n).hasData = true := fun h ↦
        hwrite (by rw [h, hupdate]; rfl)
      constructor
      · intro h
        refine ⟨.inr hupdate, fun hI ↦ .inr ?_, fun h ↦ absurd h hneeds⟩
        by_contra hmiss
        have htag := (h (.inl hI)).1
        rw [hlines, Request.op, DirectMapped.apply, if_neg hmiss] at htag
        exact hmiss htag
      · intro h hwanted
        have htag := hwanted.elim (fun hI ↦ (h.insert hI).resolve_left hdata) id
        rw [hlines, Request.op, DirectMapped.apply, if_pos htag, Function.update_self]
        exact ⟨rfl, fun hH ↦ absurd hH hdata, fun h ↦ absurd h hneeds, fun _ ↦ rfl⟩

/-- An insert of a block and, after its answer, a write to it. -/
def insertWrite : ℕ → Input
  | 0 => ⟨true, 0x440, true, true, 7, false, true, 3⟩
  | 3 => ⟨true, 0x440, false, true, 9, false, true, 5⟩
  | _ => ⟨false, 0, false, false, 0, false, false, 0⟩

/-- The write hits. -/
theorem effectsHappen_write : InsertOrHit insertWrite 3 ∧ EffectsHappen insertWrite 3 := by
  have havailable : (run insertWrite 3).cache.nxt.portAvailable = true := by decide +kernel
  refine ⟨.inr ⟨false, by decide +kernel⟩, ?_⟩
  exact (effectsHappen_iff insertWrite 3 havailable rfl (by decide)).mpr ⟨.inr rfl, nofun, nofun⟩

/-- An insert of a block and, after its answer, a read of it with a new state. -/
def insertReadUpdate : ℕ → Input
  | 0 => ⟨true, 0x440, true, true, 7, false, true, 3⟩
  | 3 => ⟨true, 0x440, false, false, 0, true, true, 5⟩
  | _ => ⟨false, 0, false, false, 0, false, false, 0⟩

/-- The read hits, and the state it brings is not stored. -/
theorem not_effectsHappen_readUpdate :
    (run insertReadUpdate 3).cache.nxt.portAvailable = true ∧ (insertReadUpdate 3).ena = true ∧
      ¬((insertReadUpdate 3).hasData = true ∧ (insertReadUpdate 3).needsData = true) ∧
      InsertOrHit insertReadUpdate 3 ∧ (insertReadUpdate 3).updateState = true ∧
      (∀ set, (lineAt insertReadUpdate 6 set 0x440).state = 3) ∧
      ¬EffectsHappen insertReadUpdate 3 := by
  have hread : Accepts insertReadUpdate 3 (.read 0x440) := ⟨by decide +kernel, rfl⟩
  have hstate : ((run insertReadUpdate 6).lines (indexOf 0x440)).state = 3 := by decide +kernel
  have hhit : InsertOrHit insertReadUpdate 3 := .inr ⟨false, by decide +kernel⟩
  refine ⟨hread.1, rfl, by decide, hhit, rfl, fun set ↦ ?_, ?_⟩
  · rw [lineAt_eq]
    exact hstate
  · rw [effectsHappen_iff_of_served hread.2 (served_read _ hread.idle hread.2)]
    intro h
    have hnew := (effectsBy_iff.mp (h hhit)).2.2.2 rfl
    exact absurd (hstate.symm.trans hnew) (by decide)

end Effects

end Cse502.Warmup
