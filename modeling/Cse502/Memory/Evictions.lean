import Cse502.Memory.Caches

/-!
# Dirty victims

A line that is put into a full first cache evicts the one used least recently. If that one is dirty,
its address should be marked in the second cache. The code marks the address of the request instead,
so the second cache is right exactly as long as no dirty line has been evicted.
-/

namespace Cse502.Memory

/-- The request inserts its line into a full first cache, and the oldest line there is the one at
this address, and dirty. -/
def DataStep.EvictsDirty (e : DataStep) (a : Word) : Prop :=
  e.Inserts e.req.addr ∧ e.before.l1d.s.length = e.before.l1d.capacity ∧
    ∃ rest, e.before.l1d.s = (a, .dirty) :: rest

/-- The dirty lines of the second cache have been evicted dirty from the first one. -/
def OnlyVictims (m : Memory) (log : List DataStep) : Prop :=
  ∀ a, (a, .dirty) ∈ m.l2.s → ∃ e ∈ log, e.EvictsDirty a

/-- Every dirty victim is dirty in the second cache after its eviction, and nothing else ever is. -/
structure WritesBack (t : History) : Prop where
  reaches : ∀ e ∈ t.data, ∀ a, e.EvictsDirty a → (a, .dirty) ∈ e.after.l2.s
  onlyVictims : OnlyVictims t.memory t.data
  afterEach : ∀ pre e post, t.data = pre ++ e :: post → OnlyVictims e.after (pre ++ [e])

/-! ## One request -/

/-- A dirty victim is the oldest line of a full cache. -/
theorem evicted_eq_dirty {addr : Word} {op : MemOp} {m : Memory}
    (h : (m.evicted addr op).2 = .dirty) :
    m.l1d.s.length = m.l1d.capacity ∧ ∃ a rest, m.l1d.s = (a, .dirty) :: rest := by
  rw [evicted, LruSet.put] at h
  by_cases hfull : m.l1d.s.length = m.l1d.capacity
  · rw [if_pos hfull] at h
    cases hs : m.l1d.s with
    | nil => exact absurd h (by simp [hs, noVictim])
    | cons x rest =>
      obtain ⟨a, d⟩ := x
      obtain rfl : d = .dirty := by simpa [hs] using h
      exact ⟨hs ▸ hfull, a, rest, rfl⟩
  · rw [if_neg hfull] at h
    exact absurd h (by simp [noVictim])

/-- The victim is the oldest line of a full cache. -/
theorem evicted_of_full {m : Memory} (hfull : m.l1d.s.length = m.l1d.capacity) {x : Word × Dirty}
    {rest : List (Word × Dirty)} (hs : m.l1d.s = x :: rest) (addr : Word) (op : MemOp) :
    m.evicted addr op = x := by
  rw [evicted, LruSet.put, if_pos hfull, hs]
  rfl

/-- The write back does not look at the first cache. -/
theorem writeback_l2 (l1d : LruSet Word Dirty) (victim : Dirty) (addr : Word) (m : Memory) :
    (writeback victim addr { m with l1d := l1d }).l2 = (m.writeback victim addr).l2 := by
  rw [writeback, writeback]
  split_ifs
  · dsimp only
    split <;> rfl
  · rfl

theorem dLatency_l2_of_notMem {addr : Word} {m : Memory} (h : addr ∉ m.l1d.s.map Prod.fst)
    (op : MemOp) : (m.dLatency op addr).2.l2 =
      (m.writeback (m.evicted addr op).2 addr).l2.access noVictim addr .clean := by
  rw [dLatency_of_notMem h, (lookL2_caches _ _ _).2.2, writeback_l2]

/-- The write back marks the address it is given. -/
theorem mem_writeback (addr : Word) (m : Memory) :
    (addr, .dirty) ∈ (m.writeback .dirty addr).l2.s ∧
      ∀ d, (addr, d) ∈ (m.writeback .dirty addr).l2.s → d = .dirty := by
  rw [writeback, if_pos rfl]
  by_cases h : addr ∈ m.l2.s.map Prod.fst
  · obtain ⟨v, -, hget⟩ := LruSet.get_of_mem h false
    rw [hget]
    refine ⟨LruSet.mem_assign_self h _, fun d hd ↦ ?_⟩
    rcases LruSet.mem_assign hd with heq | ⟨-, hne⟩
    · exact congrArg Prod.snd heq
    · exact absurd rfl hne
  · rw [LruSet.get_of_notMem h]
    refine ⟨LruSet.mem_put_self _ _, fun d hd ↦ ?_⟩
    rcases LruSet.mem_put hd with hold | hnew
    · exact absurd (List.mem_map.mpr ⟨_, hold, rfl⟩) h
    · exact congrArg Prod.snd hnew

/-- An access to a key that is there keeps its entry. -/
theorem mem_access_of_unique {addr : Word} {c : LruSet Word Dirty} (hmem : (addr, .dirty) ∈ c.s)
    (hunique : ∀ d, (addr, d) ∈ c.s → d = .dirty) (v : Dirty) :
    (addr, .dirty) ∈ (c.access noVictim addr v).s := by
  have hkey : addr ∈ c.s.map Prod.fst := List.mem_map.mpr ⟨_, hmem, rfl⟩
  obtain ⟨d, hd, hget⟩ := LruSet.get_of_mem hkey true
  obtain rfl := hunique d hd
  rw [LruSet.access, hget]
  exact List.mem_append_right _ List.mem_cons_self

/-- **After a dirty eviction it is the address of the request that is marked.** -/
theorem mem_l2_of_evictsDirty {now : ℕ} {req : DataRequest} {mem mem' : Mem} {m m' : Memory}
    (hreq : dRequest now req mem m = some (mem', m')) {a : Word}
    (h : DataStep.EvictsDirty ⟨now, req, m, m'⟩ a) : (req.addr, .dirty) ∈ m'.l2.s := by
  obtain ⟨⟨hop, -, hlookup, hmiss⟩, hfull, rest, hs⟩ := h
  rcases dRequest_cases hreq with ⟨hnone, -⟩ | ⟨-, tags, hmerged, -⟩ | ⟨-, -, rfl⟩
  · exact absurd hnone hop
  · exact absurd (hmerged.symm.trans hlookup) (by simp)
  · have hl2 := dLatency_l2_of_notMem hmiss req.op
    rw [evicted_of_full hfull hs] at hl2
    obtain ⟨hmem, hunique⟩ := mem_writeback req.addr m
    exact hl2 ▸ mem_access_of_unique hmem hunique .clean

/-- A data request that evicts no dirty line leaves the second cache clean. -/
theorem l2_clean_of_not_evictsDirty {now : ℕ} {req : DataRequest} {mem mem' : Mem}
    {m m' : Memory} (hreq : dRequest now req mem m = some (mem', m'))
    (h : ∀ a, ¬DataStep.EvictsDirty ⟨now, req, m, m'⟩ a) (hm : ∀ x ∈ m.l2.s, x.2 = .clean) :
    ∀ x ∈ m'.l2.s, x.2 = .clean := by
  rcases dRequest_cases hreq with ⟨-, rfl⟩ | ⟨-, tags, -, rfl⟩ | ⟨hop, hlookup, rfl⟩
  · exact hm
  · exact hm
  · by_cases hhit : req.addr ∈ m.l1d.s.map Prod.fst
    · rw [dLatency_of_mem hhit]
      exact hm
    · intro x hx
      have hx' : x ∈ (m.dLatency req.op req.addr).2.l2.s := hx
      have hvictim : ¬(m.evicted req.addr req.op).2 = .dirty := by
        intro hdirty
        obtain ⟨hfull, a, rest, hs⟩ := evicted_eq_dirty hdirty
        exact h a ⟨⟨hop, rfl, hlookup, hhit⟩, hfull, rest, hs⟩
      rw [dLatency_l2_of_notMem hhit, writeback, if_neg hvictim] at hx'
      rcases LruSet.mem_access hx' with hold | ⟨-, rfl⟩
      · exact hm x hold
      · rfl

/-! ## Runs -/

/-- The first entry of a list with a property. -/
theorem exists_first {α : Type*} {p : α → Prop} {l : List α} (h : ∃ x ∈ l, p x) :
    ∃ pre x post, l = pre ++ x :: post ∧ p x ∧ ∀ y ∈ pre, ¬p y := by
  induction l with
  | nil => exact absurd h (by simp)
  | cons a l ih =>
    by_cases ha : p a
    · exact ⟨[], a, l, rfl, ha, fun y hy ↦ absurd hy List.not_mem_nil⟩
    · obtain ⟨x, hx, hpx⟩ := h
      have hxl : x ∈ l := (List.mem_cons.mp hx).resolve_left fun hxa ↦ ha (hxa ▸ hpx)
      obtain ⟨pre, y, post, rfl, hy, hpre⟩ := ih ⟨x, hxl, hpx⟩
      refine ⟨a :: pre, y, post, rfl, hy, fun z hz ↦ ?_⟩
      rcases List.mem_cons.mp hz with rfl | hz
      · exact ha
      · exact hpre z hz

variable {iPorts dPorts : ℕ} {mem : Mem} {inputs : ℕ → MemoryInput iPorts dPorts} {n : ℕ}
  {t : History}

/-- The first dirty eviction of a run marks an address that was not evicted. -/
theorem WritesBack.not_evictsDirty (hback : WritesBack t)
    (h : History.run mem inputs n = some t) : ∀ e ∈ t.data, ∀ a, ¬e.EvictsDirty a := by
  by_contra hnot
  push Not at hnot
  obtain ⟨pre, e, post, hsplit, ⟨a, ha⟩, hpre⟩ := exists_first hnot
  have he : e ∈ t.data := hsplit ▸ List.mem_append_right _ List.mem_cons_self
  obtain ⟨mem, mem', hreq⟩ := run_logged h he
  obtain ⟨e', he', hvictim⟩ :=
    hback.afterEach pre e post hsplit e.req.addr (mem_l2_of_evictsDirty hreq ha)
  rcases List.mem_append.mp he' with he' | he'
  · exact hpre e' he' ⟨_, hvictim⟩
  · -- the victim was in the first cache, and the address of the request was not
    obtain rfl := List.mem_singleton.mp he'
    obtain ⟨⟨-, -, -, hmiss⟩, -, rest, hs⟩ := hvictim
    refine hmiss (List.mem_map.mpr ⟨(e'.req.addr, .dirty), ?_, rfl⟩)
    rw [hs]
    exact List.mem_cons_self

/-- **When dirty victims reach the second cache**: only in the runs that evict none. -/
theorem writesBack_iff (h : History.run mem inputs n = some t) :
    WritesBack t ↔ ∀ e ∈ t.data, ∀ a, ¬e.EvictsDirty a := by
  constructor
  · intro hback
    exact hback.not_evictsDirty h
  · intro hnone
    have hkept : Kept fun m log ↦
        (∀ e ∈ log, ∀ a, ¬e.EvictsDirty a) → ∀ x ∈ m.l2.s, x.2 = .clean := by
      constructor
      case sides => exact fun _ _ _ _ hm ↦ hm
      case inst =>
        intro now req m m' log hreq hm hlog x hx
        rcases iRequest_cases hreq with ⟨-, rfl⟩ | ⟨-, tags, -, rfl⟩ | ⟨-, -, rfl⟩
        · exact hm hlog x hx
        · exact hm hlog x hx
        · have hx' : x ∈ (m.iLatency req.addr).2.l2.s := hx
          rcases (iLatency_caches req.addr m).2.2 with heq | heq
          · exact hm hlog x (heq ▸ hx')
          · rw [heq] at hx'
            rcases LruSet.mem_access hx' with hold | ⟨-, rfl⟩
            · exact hm hlog x hold
            · rfl
      case data =>
        intro now req mem mem' m m' log hreq hm hlog
        exact l2_clean_of_not_evictsDirty hreq
          (hlog _ (List.mem_append_right _ List.mem_cons_self))
          (hm fun e he ↦ hlog e (List.mem_append_left _ he))
    have hinit : (∀ e ∈ ([] : List DataStep), ∀ a, ¬e.EvictsDirty a) →
        ∀ x ∈ init.l2.s, x.2 = .clean := fun _ x hx ↦ absurd hx List.not_mem_nil
    constructor
    case reaches => exact fun e he a ha ↦ absurd ha (hnone e he a)
    case onlyVictims =>
      exact fun a ha ↦ Dirty.noConfusion (hkept.run hinit h hnone _ ha)
    case afterEach =>
      intro pre e post hsplit a ha
      have hpre : ∀ e' ∈ pre ++ [e], ∀ a, ¬e'.EvictsDirty a := by
        intro e' he'
        refine hnone e' ?_
        rw [hsplit, List.append_cons]
        exact List.mem_append_left _ he'
      exact Dirty.noConfusion (hkept.run_after hinit h hsplit hpre _ ha)

/-! ## More lines than fit -/

/-- The lines that are asked for, one after the other. -/
def line (j : ℕ) : Word := BitVec.ofNat 64 (0x10000 + 8 * j)

/-- One more request than the first cache has lines. -/
def touch (op : MemOp) : List DataRequest :=
  (List.range 129).map fun j ↦ ⟨op, BitVec.ofNat 32 j, line j, 0⟩

/-- Such requests that are writes. -/
def fill : List DataRequest := (List.range 129).map fun j ↦ ⟨.write, BitVec.ofNat 32 j, line j, 0⟩

variable {op : MemOp}

theorem line_toNat {j : ℕ} (hj : j < 129) : (line j).toNat = 0x10000 + 8 * j := by
  rw [line, BitVec.toNat_ofNat]
  omega

theorem line_inj {j k : ℕ} (hj : j < 129) (hk : k < 129) (h : line j = line k) : j = k := by
  have hnat := congrArg BitVec.toNat h
  rw [line_toNat hj, line_toNat hk] at hnat
  omega

theorem touch_valid : ∀ req ∈ touch op, req.Valid := by
  intro req hreq
  obtain ⟨j, hj, rfl⟩ := List.mem_map.mp hreq
  have hnat := line_toNat (List.mem_range.mp hj)
  have hlt := List.mem_range.mp hj
  refine .inr ⟨?_, ?_⟩
  · rw [inRange, Bool.and_eq_true, BitVec.ult, BitVec.ult, decide_eq_true_iff, decide_eq_true_iff,
      hnat]
    constructor
    · change 0xffff < _
      omega
    · change _ < 64 * 1024 * 1024
      omega
  · change (line j).toNat % 8 = 0
    omega

/-- After a number of requests the first cache holds their lines, marked by the operation, and no
response is due. -/
structure Filling (op : MemOp) (n : ℕ) (m : Memory) : Prop where
  i : m.i = Side.init
  due : ∀ e ∈ m.d.resp.pq, 112000 ≤ e.1
  waiting : ∀ a, m.d.mshr.lookup a ≠ none → ∃ j < n, a = line j
  l1d : m.l1d = ⟨128, (List.range n).map fun j ↦ (line j, if op = .read then .clean else .dirty)⟩
  l2 : ∀ e ∈ m.l2.s, ∃ j < n, e.1 = line j

theorem Filling.notMem {n : ℕ} {m : Memory} (h : Filling op n m) (hn : n < 129) :
    line n ∉ m.l1d.s.map Prod.fst ∧ line n ∉ m.l2.s.map Prod.fst ∧
      m.d.mshr.lookup (line n) = none := by
  refine ⟨fun hmem ↦ ?_, fun hmem ↦ ?_, ?_⟩
  · obtain ⟨e, he, heq⟩ := List.mem_map.mp hmem
    rw [h.l1d] at he
    obtain ⟨j, hj, rfl⟩ := List.mem_map.mp he
    have hlt := List.mem_range.mp hj
    have := line_inj (by omega) hn heq
    omega
  · obtain ⟨e, he, heq⟩ := List.mem_map.mp hmem
    obtain ⟨j, hj, hej⟩ := h.l2 e he
    have := line_inj (by omega) hn (hej.symm.trans heq)
    omega
  · by_contra hne
    obtain ⟨j, hj, heq⟩ := h.waiting _ hne
    have := line_inj (by omega) hn heq.symm
    omega

/-- A miss in both caches takes 112 nanoseconds. -/
theorem dLatency_fst_of_notMem {addr : Word} {op : MemOp} {m : Memory}
    (hl1d : addr ∉ m.l1d.s.map Prod.fst) (hl2 : addr ∉ m.l2.s.map Prod.fst)
    (hvictim : (m.evicted addr op).2 = .clean) : (m.dLatency op addr).1 = 112 := by
  have hvictim' : ((m.l1d.put noVictim addr (if op = .read then .clean else .dirty)).1).2 =
      .clean := hvictim
  rw [dLatency, LruSet.get_of_notMem hl1d]
  dsimp only
  rw [hvictim', writeback, if_neg Dirty.noConfusion, lookL2]
  dsimp only
  rw [LruSet.get_of_notMem hl2]

/-- One more request to a cache with room. -/
theorem Filling.next {n now : ℕ} {tag : BitVec 32} {mem mem' : Mem} {m m' : Memory}
    (h : Filling op n m) (hop : op ≠ .none) (hn : n < 128)
    (hreq : dRequest now ⟨op, tag, line n, 0⟩ mem m = some (mem', m')) :
    Filling op (n + 1) m' := by
  obtain ⟨hl1d, hl2, hlookup⟩ := h.notMem (by omega)
  have hroom : ¬m.l1d.s.length = m.l1d.capacity := by
    rw [h.l1d, List.length_map, List.length_range]
    exact Nat.ne_of_lt hn
  have hvictim : (m.evicted (line n) op).2 = .clean := by
    rw [evicted, LruSet.put, if_neg hroom]
    rfl
  rcases dRequest_cases hreq with ⟨hnone, -⟩ | ⟨-, tags, hmerged, -⟩ | ⟨-, -, rfl⟩
  · exact absurd hnone hop
  · exact absurd (hmerged.symm.trans hlookup) (by simp)
  · constructor
    case i => exact (dLatency_sides op (line n) m).1.trans h.i
    case due =>
      intro e he
      rcases List.mem_cons.mp he with rfl | he
      · dsimp only
        rw [dLatency_fst_of_notMem hl1d hl2 hvictim]
        omega
      · exact h.due e he
    case waiting =>
      intro a ha
      by_cases hline : a = line n
      · exact ⟨n, n.lt_succ_self, hline⟩
      · have hold : m.d.mshr.lookup a ≠ none := by
          rw [← Finmap.lookup_insert_of_ne m.d.mshr hline]
          exact ha
        obtain ⟨j, hj, heq⟩ := h.waiting a hold
        exact ⟨j, by omega, heq⟩
    case l1d =>
      have hput := dLatency_l1d_of_notMem hl1d op
      refine hput.trans ?_
      rw [LruSet.put, if_neg hroom, h.l1d, List.range_succ, List.map_append]
      rfl
    case l2 =>
      intro e he
      have hput := dLatency_l2_of_notMem hl1d op
      have he' : e ∈ (m.dLatency op (line n)).2.l2.s := he
      rw [hput, hvictim, writeback, if_neg Dirty.noConfusion] at he'
      rcases LruSet.mem_access he' with hold | ⟨-, rfl⟩
      · obtain ⟨j, hj, heq⟩ := h.l2 e hold
        exact ⟨j, by omega, heq⟩
      · exact ⟨n, n.lt_succ_self, rfl⟩

/-- One cycle of the run, which looks at one request. -/
theorem touch_cycle {n : ℕ} (hn : n < 129) {t t' : History} (h : Filling op n t.memory)
    (hcycle : History.cycle (dataOnly (touch op) n) t = some t') :
    dRequest (500 * n) ⟨op, BitVec.ofNat 32 n, line n, 0⟩ t.mem t.memory =
        some (t'.mem, t'.memory) ∧
      t'.data = t.data ++
        [⟨500 * n, ⟨op, BitVec.ofNat 32 n, line n, 0⟩, t.memory, t'.memory⟩] := by
  have hreq : List.ofFn (dataOnly (touch op) n).dReq =
      [⟨op, BitVec.ofNat 32 n, line n, 0⟩] := by
    have hget : (touch op).getD n ⟨.none, 0, 0, 0⟩ = ⟨op, BitVec.ofNat 32 n, line n, 0⟩ := by
      rw [List.getD_eq_getElem?_getD, touch, List.getElem?_map, List.getElem?_range hn]
      rfl
    rw [List.ofFn_succ, List.ofFn_zero, dataOnly, hget]
  obtain ⟨hrun, hdata, -⟩ := cycle_of_not_due rfl
    (fun e he ↦ absurd (h.i ▸ he) List.not_mem_nil)
    (fun e he ↦ (show 500 * n < 112000 by omega).trans_le (h.due e he)) (fun _ ↦ rfl) hcycle
  rw [hreq] at hrun hdata
  obtain ⟨⟨mem₁, m₁⟩, hone, hnil⟩ := Option.bind_eq_some_iff.mp hrun
  obtain ⟨rfl, rfl⟩ := Prod.mk.inj (Option.some.inj hnil)
  refine ⟨hone, ?_⟩
  have hone' : dRequest (dataOnly (touch op) n).now ⟨op, BitVec.ofNat 32 n, line n, 0⟩ t.mem
      t.memory = some (t'.mem, t'.memory) := hone
  rw [hdata, dSteps, hone', Option.elim_some, dSteps]
  rfl

theorem touch_run {n : ℕ} (hop : op ≠ .none) (hn : n ≤ 128) {t : History}
    (h : History.run (fun _ ↦ 0) (dataOnly (touch op)) n = some t) : Filling op n t.memory := by
  induction n generalizing t with
  | zero =>
    obtain rfl := Option.some.inj h
    refine ⟨rfl, ?_, ?_, rfl, ?_⟩
    · exact fun e he ↦ absurd he List.not_mem_nil
    · exact fun a ha ↦ absurd (Finmap.lookup_empty a) ha
    · exact fun e he ↦ absurd he List.not_mem_nil
  | succ n ih =>
    obtain ⟨t₀, hrun, hcycle⟩ := Option.bind_eq_some_iff.mp h
    have hfilling := ih (by omega) hrun
    exact hfilling.next hop (by omega) (touch_cycle (by omega) hfilling hcycle).1

/-- Every request of the run meets such a state. -/
theorem touch_data {n : ℕ} (hop : op ≠ .none) (hn : n ≤ 129) {t : History}
    (h : History.run (fun _ ↦ 0) (dataOnly (touch op)) n = some t) :
    ∀ e ∈ t.data, ∃ k, Filling op k e.before := by
  induction n generalizing t with
  | zero =>
    obtain rfl := Option.some.inj h
    exact fun e he ↦ absurd he List.not_mem_nil
  | succ n ih =>
    obtain ⟨t₀, hrun, hcycle⟩ := Option.bind_eq_some_iff.mp h
    have hfilling := touch_run hop (by omega) hrun
    rw [(touch_cycle (by omega) hfilling hcycle).2]
    exact List.forall_mem_append.mpr
      ⟨ih (by omega) hrun, List.forall_mem_singleton.mpr ⟨n, hfilling⟩⟩

/-- The last request finds the first cache full, with the first line at its front. -/
theorem touch_last (hop : op ≠ .none) {t : History}
    (h : History.run (fun _ ↦ 0) (dataOnly (touch op)) 129 = some t) :
    ∃ e ∈ t.data, e.Inserts e.req.addr ∧ e.before.l1d.s.length = e.before.l1d.capacity ∧
      ∃ rest, e.before.l1d.s = (line 0, if op = .read then .clean else .dirty) :: rest := by
  obtain ⟨t₀, hrun, hcycle⟩ := Option.bind_eq_some_iff.mp h
  have hfilling := touch_run hop le_rfl hrun
  obtain ⟨-, hdata⟩ := touch_cycle (by norm_num) hfilling hcycle
  obtain ⟨hl1d, -, hlookup⟩ := hfilling.notMem (by norm_num)
  refine ⟨_, hdata ▸ List.mem_append_right _ List.mem_cons_self, ⟨hop, rfl, hlookup, hl1d⟩, ?_, ?_⟩
  · dsimp only
    rw [hfilling.l1d, List.length_map, List.length_range]
  · exact ⟨_, congrArg LruSet.s hfilling.l1d⟩

/-- Reads evict clean lines only. The 129th finds the first cache full. -/
theorem writesBack_reads :
    ∃ t, History.run (fun _ ↦ 0) (dataOnly (touch .read)) 129 = some t ∧
      (∃ e ∈ t.data, e.Inserts e.req.addr ∧ e.before.l1d.s.length = e.before.l1d.capacity ∧
        ∃ rest, e.before.l1d.s = (line 0, .clean) :: rest) ∧ WritesBack t := by
  have hop : MemOp.read ≠ .none := by decide
  obtain ⟨t, ht⟩ := exists_run (fun _ ↦ 0) (dataOnly_valid touch_valid) 129
  refine ⟨t, ht, touch_last hop ht, (writesBack_iff ht).mpr ?_⟩
  rintro e he a ⟨-, -, rest, hs⟩
  obtain ⟨k, hfilling⟩ := touch_data hop le_rfl ht e he
  have hfront : (a, Dirty.dirty) ∈ e.before.l1d.s := hs ▸ List.mem_cons_self
  rw [hfilling.l1d] at hfront
  obtain ⟨j, -, hj⟩ := List.mem_map.mp hfront
  exact Dirty.noConfusion (congrArg Prod.snd hj)

/-- The write to the 129th line evicts the first one, which is dirty and does not become so in the
second cache. -/
theorem not_writesBack_fill :
    ∃ t, History.run (fun _ ↦ 0) (dataOnly fill) 129 = some t ∧ ¬WritesBack t := by
  have hfill : fill = touch .write := rfl
  rw [hfill]
  obtain ⟨t, ht⟩ := exists_run (fun _ ↦ 0) (dataOnly_valid touch_valid) 129
  refine ⟨t, ht, fun hback ↦ ?_⟩
  obtain ⟨e, he, hevicts⟩ := touch_last (by decide) ht
  exact hback.not_evictsDirty ht e he (line 0) hevicts

end Cse502.Memory
