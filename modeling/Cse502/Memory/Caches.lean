import Cse502.Memory.Lru
import Cse502.Memory.Steps
import Mathlib.Tactic

/-!
# Dirty lines

The caches keep tags, and the data side marks the lines that were written. Two things go wrong on
the way of a mark. A write that is merged in the MSHRs leaves before the first cache is looked at,
so a line that is waited for stays clean. And the write back of a dirty victim goes to the address
of the request that evicted it, so the second cache never learns of the victim.
-/

namespace Cse502.Memory

open LruSet (after)

/-! ## One request -/

/-- The write back of a victim changes the second cache only. -/
theorem writeback_caches (victim : Dirty) (addr : Word) (m : Memory) :
    (m.writeback victim addr).l1i = m.l1i ∧ (m.writeback victim addr).l1d = m.l1d := by
  rw [writeback]
  split_ifs
  · split <;> exact ⟨rfl, rfl⟩
  · exact ⟨rfl, rfl⟩

/-- A hit promotes the line, and a write marks it. -/
theorem dLatency_of_mem {addr : Word} {m : Memory} (h : addr ∈ m.l1d.s.map Prod.fst) (op : MemOp) :
    (m.dLatency op addr).2 = { m with
      l1d := if op = .write then (m.l1d.get addr true).2.assign addr .dirty
        else (m.l1d.get addr true).2 } := by
  obtain ⟨v, -, hget⟩ := LruSet.get_of_mem h true
  rw [dLatency, hget]

/-- The line a miss evicts. -/
def evicted (addr : Word) (op : MemOp) (m : Memory) : Word × Dirty :=
  (m.l1d.put noVictim addr (if op = .read then .clean else .dirty)).1

/-- A miss puts the line in, and looks into the second cache once the victim is written back. -/
theorem dLatency_of_notMem {addr : Word} {m : Memory} (h : addr ∉ m.l1d.s.map Prod.fst)
    (op : MemOp) :
    (m.dLatency op addr).2 = ((writeback (m.evicted addr op).2 addr { m with
      l1d := (m.l1d.put noVictim addr (if op = .read then .clean else .dirty)).2 }).lookL2 addr
        (3 + 9)).2 := by
  rw [dLatency, LruSet.get_of_notMem h]
  rfl

theorem dLatency_l1i (op : MemOp) (addr : Word) (m : Memory) :
    (m.dLatency op addr).2.l1i = m.l1i := by
  by_cases h : addr ∈ m.l1d.s.map Prod.fst
  · rw [dLatency_of_mem h]
  · rw [dLatency_of_notMem h, (lookL2_caches _ _ _).1, (writeback_caches _ _ _).1]

theorem dLatency_l1d_of_notMem {addr : Word} {m : Memory} (h : addr ∉ m.l1d.s.map Prod.fst)
    (op : MemOp) : (m.dLatency op addr).2.l1d =
      (m.l1d.put noVictim addr (if op = .read then .clean else .dirty)).2 := by
  rw [dLatency_of_notMem h, (lookL2_caches _ _ _).2.1, (writeback_caches _ _ _).2]

/-! ## The cache of the instructions -/

/-- **In every run the cache of the instructions is the LRU set of what was looked up in it.** -/
theorem l1i_run {iPorts dPorts : ℕ} {mem : Mem} {inputs : ℕ → MemoryInput iPorts dPorts} {n : ℕ}
    {t : History} (h : History.run mem inputs n = some t) :
    ∃ addrs : List Word, t.memory.l1i = after noVictim 128 (addrs.map (.access · .clean)) := by
  have hkept : Kept fun m _ ↦
      ∃ addrs : List Word, m.l1i = after noVictim 128 (addrs.map (.access · .clean)) := by
    constructor
    case sides => exact fun _ _ _ _ hm ↦ hm
    case inst =>
      rintro now req m m' - hreq ⟨addrs, haddrs⟩
      rcases iRequest_cases hreq with ⟨-, rfl⟩ | ⟨-, tags, -, rfl⟩ | ⟨-, -, rfl⟩
      · exact ⟨addrs, haddrs⟩
      · exact ⟨addrs, haddrs⟩
      · refine ⟨addrs ++ [req.addr], ?_⟩
        rw [List.map_append, List.map_singleton, LruSet.after_concat, ← haddrs]
        exact (iLatency_caches req.addr m).1
    case data =>
      rintro now req mem mem' m m' - hreq ⟨addrs, haddrs⟩
      rcases dRequest_cases hreq with ⟨-, rfl⟩ | ⟨-, tags, -, rfl⟩ | ⟨-, -, rfl⟩
      · exact ⟨addrs, haddrs⟩
      · exact ⟨addrs, haddrs⟩
      · exact ⟨addrs, (dLatency_l1i _ _ _).trans haddrs⟩
  exact hkept.run ⟨[], rfl⟩ h

/-! ## The marks of the writes -/

namespace DataStep

/-- The request is one for the address, is not merged, and does not find it in the first cache. -/
def Inserts (e : DataStep) (a : Word) : Prop :=
  e.req.op ≠ .none ∧ e.req.addr = a ∧ e.before.d.mshr.lookup a = none ∧
    a ∉ e.before.l1d.s.map Prod.fst

/-- The request writes to the address. -/
def Writes (e : DataStep) (a : Word) : Prop := e.req.op = .write ∧ e.req.addr = a

/-- The request is a write that is merged while its line is in the first cache and clean. -/
def LosesMark (e : DataStep) : Prop :=
  e.req.op = .write ∧ e.before.d.mshr.lookup e.req.addr ≠ none ∧
    (e.req.addr, .clean) ∈ e.before.l1d.s

end DataStep

/-- A write to the address was accepted since the address was last inserted into the first cache,
or inserted it. -/
def WrittenSince (log : List DataStep) (a : Word) : Prop :=
  ∃ pre e post, log = pre ++ e :: post ∧ e.Writes a ∧ ∀ e' ∈ post, ¬e'.Inserts a

/-- The lines that were written since they were inserted are marked. -/
def MarksWrites (m : Memory) (log : List DataStep) : Prop :=
  ∀ a v, (a, v) ∈ m.l1d.s → WrittenSince log a → v = .dirty

theorem writtenSince_concat {log : List DataStep} {e : DataStep} {a : Word} :
    WrittenSince (log ++ [e]) a ↔ e.Writes a ∨ (WrittenSince log a ∧ ¬e.Inserts a) := by
  constructor
  · rintro ⟨pre, e', post, hlog, hwrites, hpost⟩
    rcases concat_eq_split hlog with ⟨-, rfl, -⟩ | ⟨post', rfl, rfl⟩
    · exact .inl hwrites
    · refine .inr ⟨⟨pre, e', post', rfl, hwrites, fun e₁ he₁ ↦ ?_⟩, ?_⟩
      · exact hpost e₁ (List.mem_append_left _ he₁)
      · exact hpost e (List.mem_append_right _ List.mem_cons_self)
  · rintro (hwrites | ⟨⟨pre, e', post, rfl, hwrites, hpost⟩, hinserts⟩)
    · exact ⟨log, e, [], rfl, hwrites, fun e' he' ↦ absurd he' List.not_mem_nil⟩
    · refine ⟨pre, e', post ++ [e], by simp, hwrites, fun e₁ he₁ ↦ ?_⟩
      rcases List.mem_append.mp he₁ with he₁ | he₁
      · exact hpost e₁ he₁
      · exact List.mem_singleton.mp he₁ ▸ hinserts

/-- A data request that does not lose a mark keeps the lines that were written marked. -/
theorem MarksWrites.data {now : ℕ} {req : DataRequest} {mem mem' : Mem} {m m' : Memory}
    {log : List DataStep} (hm : MarksWrites m log)
    (hreq : dRequest now req mem m = some (mem', m'))
    (hkeeps : ¬DataStep.LosesMark ⟨now, req, m, m'⟩) :
    MarksWrites m' (log ++ [⟨now, req, m, m'⟩]) := by
  intro a v hv hwritten
  rw [writtenSince_concat] at hwritten
  rcases dRequest_cases hreq with ⟨hnone, rfl⟩ | ⟨-, tags, hlookup, rfl⟩ | ⟨hop, hlookup, rfl⟩
  · rcases hwritten with ⟨hwrite, -⟩ | ⟨hwritten, -⟩
    · exact absurd (hwrite.symm.trans hnone) (by simp)
    · exact hm a v hv hwritten
  · rcases hwritten with ⟨hwrite, rfl⟩ | ⟨hwritten, -⟩
    · -- the mark of a merged write is the one from before
      cases v with
      | clean => exact absurd ⟨hwrite, by simp [hlookup], hv⟩ hkeeps
      | dirty => rfl
    · exact hm a v hv hwritten
  · by_cases hhit : req.addr ∈ m.l1d.s.map Prod.fst
    · rw [dLatency_of_mem hhit] at hv
      by_cases hwrite : req.op = .write
      · rw [if_pos hwrite] at hv
        rcases LruSet.mem_assign hv with heq | ⟨hv, hne⟩
        · exact congrArg Prod.snd heq
        · rcases hwritten with ⟨-, haddr⟩ | ⟨hwritten, -⟩
          · exact absurd haddr.symm hne
          · exact hm a v (LruSet.mem_promote hv) hwritten
      · rw [if_neg hwrite] at hv
        rcases hwritten with ⟨hwrite', -⟩ | ⟨hwritten, -⟩
        · exact absurd hwrite' hwrite
        · exact hm a v (LruSet.mem_promote hv) hwritten
    · have hv' : (a, v) ∈ (m.dLatency req.op req.addr).2.l1d.s := hv
      rw [dLatency_l1d_of_notMem hhit] at hv'
      rcases LruSet.mem_put hv' with hold | hnew
      · rcases hwritten with ⟨-, haddr⟩ | ⟨hwritten, -⟩
        · exact absurd (List.mem_map.mpr ⟨(a, v), hold, haddr.symm⟩) hhit
        · exact hm a v hold hwritten
      · obtain ⟨rfl, rfl⟩ := Prod.mk.inj hnew
        rcases hwritten with ⟨hwrite, -⟩ | ⟨-, hinserts⟩
        · have hread : ¬req.op = .read := by
            rw [show req.op = .write from hwrite]
            exact MemOp.noConfusion
          exact if_neg hread
        · exact absurd ⟨hop, rfl, hlookup, hhit⟩ hinserts

/-- **When no write loses its mark**: in every run, after each data request and in each state that
is reached, if and only if no write is merged while its line is in the first cache and clean. -/
theorem marksWrites_iff {iPorts dPorts : ℕ} {mem : Mem} {inputs : ℕ → MemoryInput iPorts dPorts}
    {n : ℕ} {t : History} (h : History.run mem inputs n = some t) :
    (MarksWrites t.memory t.data ∧
        ∀ pre e post, t.data = pre ++ e :: post → MarksWrites e.after (pre ++ [e])) ↔
      ∀ e ∈ t.data, ¬e.LosesMark := by
  constructor
  · rintro ⟨-, hmarks⟩ e he ⟨hwrite, hmerged, hclean⟩
    obtain ⟨pre, post, hsplit⟩ := List.append_of_mem he
    obtain ⟨mem, mem', hreq⟩ := run_logged h he
    have hl1d : e.after.l1d = e.before.l1d := by
      rcases dRequest_cases hreq with ⟨-, heq⟩ | ⟨-, tags, -, heq⟩ | ⟨-, hlookup, -⟩
      · rw [heq]
      · rw [heq]
      · exact absurd hlookup hmerged
    have hdirty := hmarks pre e post hsplit e.req.addr .clean (hl1d ▸ hclean)
      (writtenSince_concat.mpr (.inl ⟨hwrite, rfl⟩))
    exact Dirty.noConfusion hdirty
  · intro hkeeps
    have hkept : Kept fun m log ↦ (∀ e ∈ log, ¬e.LosesMark) → MarksWrites m log := by
      constructor
      case sides => exact fun _ _ _ _ hm ↦ hm
      case inst =>
        intro now req m m' log hreq hm hlog a v hv
        have hl1d : m'.l1d = m.l1d := by
          rcases iRequest_cases hreq with ⟨-, rfl⟩ | ⟨-, tags, -, rfl⟩ | ⟨-, -, rfl⟩
          · rfl
          · rfl
          · exact (iLatency_caches req.addr m).2.1
        exact hm hlog a v (hl1d ▸ hv)
      case data =>
        intro now req mem mem' m m' log hreq hm hlog
        exact (hm fun e he ↦ hlog e (List.mem_append_left _ he)).data hreq
          (hlog _ (List.mem_append_right _ List.mem_cons_self))
    have hinit : (∀ e ∈ ([] : List DataStep), ¬e.LosesMark) → MarksWrites init [] :=
      fun _ a v hv ↦ absurd hv List.not_mem_nil
    refine ⟨hkept.run hinit h hkeeps, fun pre e post hsplit ↦ ?_⟩
    refine hkept.run_after hinit h hsplit fun e' he' ↦ hkeeps e' ?_
    rw [hsplit, List.append_cons]
    exact List.mem_append_left _ he'

/-- One request on the data port in each of the first cycles, none on the instruction port. -/
def dataOnly (reqs : List DataRequest) (k : ℕ) : MemoryInput 1 1 :=
  ⟨false, 500 * k, fun _ ↦ 0, fun _ ↦ 0, fun _ ↦ ⟨.none, 0, 0⟩,
    fun _ ↦ reqs.getD k ⟨.none, 0, 0, 0⟩⟩

theorem dataOnly_valid {reqs : List DataRequest} (h : ∀ req ∈ reqs, req.Valid) (k : ℕ) :
    (dataOnly reqs k).Valid := by
  refine ⟨fun _ ↦ .inl rfl, fun _ ↦ ?_⟩
  rw [dataOnly]
  dsimp only
  rw [List.getD_eq_getElem?_getD]
  cases hk : reqs[k]? with
  | none => exact .inl rfl
  | some req => exact h req (List.mem_of_getElem? hk)

/-- A write that misses marks its line. -/
theorem marksWrites_missed :
    ∃ t, History.run (fun _ ↦ 0) (dataOnly [⟨.write, 1, 0x10000, 7⟩]) 2 = some t ∧
      ((MarksWrites t.memory t.data ∧
          ∀ pre e post, t.data = pre ++ e :: post → MarksWrites e.after (pre ++ [e])) ↔
        ∀ e ∈ t.data, ¬e.LosesMark) := by
  have hvalid : ∀ req ∈ [(⟨.write, 1, 0x10000, 7⟩ : DataRequest)], req.Valid := by decide
  obtain ⟨t, ht⟩ := exists_run (fun _ ↦ 0) (dataOnly_valid hvalid) 2
  exact ⟨t, ht, marksWrites_iff ht⟩

/-- A word is read, and written while it is waited for: its line stays clean. -/
theorem not_marksWrites_merged :
    ∃ t, History.run (fun _ ↦ 0)
        (dataOnly [⟨.read, 1, 0x10000, 0⟩, ⟨.write, 2, 0x10000, 7⟩]) 2 = some t ∧
      ¬MarksWrites t.memory t.data := by
  refine ⟨_, rfl, fun h ↦ ?_⟩
  have hdirty := h 0x10000 .clean (by decide) ⟨[_], _, [], rfl, ⟨rfl, rfl⟩, by simp⟩
  exact Dirty.noConfusion hdirty

end Cse502.Memory
