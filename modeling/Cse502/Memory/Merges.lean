import Cse502.Library.FillOrder
import Cse502.Memory.Caches
import Mathlib.Tactic

/-!
# The order of merged requests

A request that finds an MSHR for its address is merged, and is to be answered after the request that
made the MSHR. The steps of a side are followed with a ledger beside it, in which the requests are
numbered. The ledger has the responses of the bucket and the tags of the MSHRs, so it says of every
answer which request it is for.

A response drains the MSHR its address has when it is taken out. That need not be its own: requests
that were merged stay in the bucket once they are drained, and by the time they are answered a later
request may have made a new MSHR.
-/

namespace Cse502

open FillOrder (Fill)

namespace DelayBucket

variable {α : Type*}

/-- What `get` takes out. -/
def top (now pick : ℕ) (b : DelayBucket α) : Option (ℕ × α) :=
  (b.tops[pick % b.tops.length]?).filter fun e ↦ e.1 ≤ now

theorem get_of_top_none [DecidableEq α] {now pick : ℕ} {b : DelayBucket α}
    (h : b.top now pick = none) : b.get now pick = none := by
  rw [get]
  split
  · rfl
  · next e he =>
    rw [top, he, Option.filter_some] at h
    by_cases hdue : e.1 ≤ now
    · rw [if_pos (decide_eq_true hdue)] at h
      cases h
    · exact if_neg hdue

theorem get_of_top [DecidableEq α] {now pick : ℕ} {b : DelayBucket α} {e : ℕ × α}
    (h : b.top now pick = some e) :
    ∃ b', b.get now pick = some (e.2, b') ∧ b.pq.Perm (e :: b'.pq) := by
  obtain ⟨htop, hdue⟩ := Option.filter_eq_some_iff.mp h
  refine ⟨⟨b.pq.erase e⟩, ?_, ?_⟩
  · rw [get, htop]
    exact if_pos (of_decide_eq_true hdue)
  · exact List.perm_cons_erase (List.mem_of_mem_filter (List.mem_of_getElem? htop))

/-- It is one of the earliest. -/
theorem top_eq_some {now pick : ℕ} {b : DelayBucket α} {e : ℕ × α} (h : b.top now pick = some e) :
    e ∈ b.pq ∧ ∀ e' ∈ b.pq, e.1 ≤ e'.1 := by
  obtain ⟨htop, -⟩ := Option.filter_eq_some_iff.mp h
  obtain ⟨hmem, hall⟩ := List.mem_filter.mp (List.mem_of_getElem? htop)
  refine ⟨hmem, fun e' he' ↦ ?_⟩
  exact of_decide_eq_true (List.all_eq_true.mp hall e' he')

theorem top_of_not_due {now : ℕ} {b : DelayBucket α} (h : ∀ e ∈ b.pq, now < e.1) (pick : ℕ) :
    b.top now pick = none := by
  rcases htop : b.top now pick with - | e
  · rfl
  · obtain ⟨-, hdue⟩ := Option.filter_eq_some_iff.mp htop
    exact absurd (of_decide_eq_true hdue) (h e (top_eq_some htop).1).not_ge

end DelayBucket

/-! ## The ledger of a side -/

/-- The requests of a side, numbered. -/
abbrev Ledger := FillOrder.State (BitVec 32) Word

namespace Ledger

/-- The entry of the bucket that a response is. -/
def entry (f : Fill (BitVec 32) Word) : ℕ × Response := (f.due, f.tag, f.key)

/-- The response that is taken out. Those that are due at one time, with one tag and one address,
are the same to the code, and `which` tells them apart. -/
def taken (which now pick : ℕ) (s : Side) (l : Ledger) : Option (Fill (BitVec 32) Word) :=
  (s.resp.top now pick).bind fun e ↦
    let same := l.bucket.filter fun f ↦ entry f = e
    same[which % same.length]?

/-- A step of the side. -/
def step (which : ℕ → ℕ) (s : Side) (l : Ledger) : SideStep → Ledger
  | .answer now pick => (l.taken (which l.answered.length) now pick s).elim l (l.answer now)
  | .request now tag addr latency => l.request (now + latency * 1000) tag addr

/-- Steps of the side, with its ledger. -/
def follow (which : ℕ → ℕ) (steps : List SideStep) (r : Side × Ledger) : Side × Ledger :=
  steps.foldl (fun r e ↦ (r.1.perform e, r.2.step which r.1 e)) r

/-- The side and its ledger, after steps from the start. -/
def track (which : ℕ → ℕ) (steps : List SideStep) : Side × Ledger :=
  follow which steps (Side.init, .init)

/-- The answer of a step, if it is one, drains in order. -/
def Drains (which : ℕ → ℕ) (r : Side × Ledger) : SideStep → Prop
  | .answer now pick =>
    ∀ f ∈ r.2.taken (which r.2.answered.length) now pick r.1, r.2.DrainsInOrder now f
  | .request _ _ _ _ => True

instance (which : ℕ → ℕ) (r : Side × Ledger) : DecidablePred (Drains which r)
  | .answer now pick =>
    inferInstanceAs (Decidable (∀ f ∈ r.2.taken (which r.2.answered.length) now pick r.1,
      r.2.DrainsInOrder now f))
  | .request _ _ _ _ => isTrue trivial

/-- The answers of the steps drain in order. -/
def InOrder (which : ℕ → ℕ) (steps : List SideStep) : Prop :=
  ∀ k, ∀ h : k < steps.length, Drains which (track which (steps.take k)) steps[k]

instance (which : ℕ → ℕ) (steps : List SideStep) : Decidable (InOrder which steps) :=
  inferInstanceAs (Decidable (∀ k, ∀ h : k < steps.length,
    Drains which (track which (steps.take k)) steps[k]))

/-- The ledger has the responses of the bucket, and the tags of the MSHRs. -/
structure Mirrors (l : Ledger) (s : Side) : Prop where
  bucket : (l.bucket.map entry).Perm s.resp.pq
  mshr : ∀ a, s.mshr.lookup a = (l.list a).map fun e ↦ e.2.map Prod.snd

variable {which : ℕ → ℕ} {s : Side} {l : Ledger} {now pick : ℕ} {f : Fill (BitVec 32) Word}

theorem mirrors_init : Mirrors .init Side.init where
  bucket := .refl _
  mshr := fun _ ↦ rfl

theorem taken_eq_some {i : ℕ} (h : l.taken i now pick s = some f) :
    f ∈ l.bucket ∧ s.resp.top now pick = some (entry f) := by
  obtain ⟨e, htop, hf⟩ := Option.bind_eq_some_iff.mp h
  obtain ⟨hmem, he⟩ := List.mem_filter.mp (List.mem_of_getElem? hf)
  exact ⟨hmem, of_decide_eq_true he ▸ htop⟩

/-- Nothing is taken out before it is due. -/
theorem step_of_not_due (hdue : ∀ e ∈ s.resp.pq, now < e.1) (which : ℕ → ℕ) (l : Ledger)
    (pick : ℕ) : l.step which s (.answer now pick) = l := by
  rw [step, taken, DelayBucket.top_of_not_due hdue, Option.bind_none, Option.elim_none]

/-- A response that is taken out is one of the ledger. -/
theorem Mirrors.exists_taken (h : Mirrors l s) {e : ℕ × Response}
    (htop : s.resp.top now pick = some e) (i : ℕ) : ∃ f, l.taken i now pick s = some f := by
  obtain ⟨f, hf, he⟩ := List.mem_map.mp (h.bucket.mem_iff.mpr (DelayBucket.top_eq_some htop).1)
  have hmem : f ∈ l.bucket.filter fun f ↦ entry f = e :=
    List.mem_filter.mpr ⟨hf, decide_eq_true he⟩
  rw [taken, htop, Option.bind_some]
  exact ⟨_, List.getElem?_eq_getElem (Nat.mod_lt _ (List.length_pos_of_mem hmem))⟩

/-- It is the earliest. -/
theorem Mirrors.due_le (h : Mirrors l s) {i : ℕ} (htaken : l.taken i now pick s = some f) :
    ∀ g ∈ l.bucket, f.due ≤ g.due := by
  intro g hg
  have hmin := (DelayBucket.top_eq_some (taken_eq_some htaken).2).2
  exact hmin (entry g) (h.bucket.mem_iff.mp (List.mem_map_of_mem hg))

theorem Mirrors.request (h : Mirrors l s) (now : ℕ) (tag : BitVec 32) (addr : Word) (latency : ℕ) :
    Mirrors (l.request (now + latency * 1000) tag addr)
      (s.perform (.request now tag addr latency)) := by
  have hlookup := h.mshr addr
  rcases hlist : l.list addr with - | ⟨owner, ws⟩
  · rw [hlist, Option.map_none] at hlookup
    have hside : s.perform (.request now tag addr latency) = s.launch now tag addr latency := by
      rw [Side.perform, hlookup]
    rw [hside]
    constructor
    case bucket =>
      rw [FillOrder.request_of_none hlist]
      exact h.bucket.cons _
    case mshr =>
      intro a
      rw [Side.launch]
      by_cases ha : a = addr
      · subst ha
        rw [FillOrder.list_request_of_none hlist, Finmap.lookup_insert]
        rfl
      · rw [FillOrder.list_request_of_ne ha, Finmap.lookup_insert_of_ne _ ha]
        exact h.mshr a
  · rw [hlist, Option.map_some] at hlookup
    have hside : s.perform (.request now tag addr latency) =
        s.merge tag addr (ws.map Prod.snd) := by
      rw [Side.perform, hlookup]
    rw [hside]
    constructor
    case bucket =>
      rw [FillOrder.request_of_list hlist]
      exact h.bucket
    case mshr =>
      intro a
      rw [Side.merge]
      by_cases ha : a = addr
      · subst ha
        rw [FillOrder.list_request_of_list hlist, Finmap.lookup_insert, Option.map_some,
          List.map_append]
        rfl
      · rw [FillOrder.list_request_of_ne ha, Finmap.lookup_insert_of_ne _ ha]
        exact h.mshr a

/-- The tags of an MSHR are added to the bucket one by one. -/
theorem foldl_add_perm (now : ℕ) (a : Word) (tags : List (BitVec 32)) (b : DelayBucket Response) :
    (tags.foldl (fun b tag ↦ b.add now (tag, a) 0) b).pq.Perm
      (tags.map (fun tag ↦ (now, tag, a)) ++ b.pq) := by
  induction tags generalizing b with
  | nil => exact .refl _
  | cons tag tags ih =>
    rw [List.foldl_cons, List.map_cons, List.cons_append]
    exact (ih _).trans List.perm_middle

theorem Mirrors.answer (h : Mirrors l s) {i : ℕ} (htaken : l.taken i now pick s = some f) :
    Mirrors (l.answer now f) (s.perform (.answer now pick)) := by
  obtain ⟨hf, htop⟩ := taken_eq_some htaken
  obtain ⟨b', hget, hperm⟩ := DelayBucket.get_of_top htop
  have herase : ((l.bucket.erase f).map entry).Perm b'.pq :=
    (((List.perm_cons_erase hf).map entry).symm.trans (h.bucket.trans hperm)).cons_inv
  have hlookup := h.mshr f.key
  rcases hlist : l.list f.key with - | ⟨owner, ws⟩
  · rw [hlist, Option.map_none] at hlookup
    have hside : s.perform (.answer now pick) = { s with resp := b' } := by
      rw [Side.perform, Side.respond, hget, Option.map_some, entry, hlookup]
      rfl
    rw [hside]
    constructor
    case bucket =>
      rw [FillOrder.State.answer, FillOrder.State.waiting, hlist]
      exact herase
    case mshr =>
      intro a
      rw [FillOrder.list_answer]
      split
      · next ha => rw [ha, hlookup, Option.map_none]
      · exact h.mshr a
  · rw [hlist, Option.map_some] at hlookup
    have hside : s.perform (.answer now pick) =
        ⟨(ws.map Prod.snd).foldl (fun b tag ↦ b.add now (tag, f.key) 0) b',
          s.mshr.erase f.key⟩ := by
      rw [Side.perform, Side.respond, hget, Option.map_some, entry, hlookup]
      rfl
    rw [hside]
    constructor
    case bucket =>
      refine List.Perm.trans ?_ (foldl_add_perm now f.key _ _).symm
      rw [FillOrder.State.answer, FillOrder.State.waiting_of_list hlist, List.map_append,
        List.map_map, List.map_map]
      exact herase.append_left _
    case mshr =>
      intro a
      rw [FillOrder.list_answer]
      by_cases ha : a = f.key
      · rw [if_pos ha, ha, Finmap.lookup_erase, Option.map_none]
      · rw [if_neg ha, Finmap.lookup_erase_ne ha]
        exact h.mshr a

/-- **The ledger has the response that the side gives.** -/
theorem Mirrors.map_respond (h : Mirrors l s) (now pick i : ℕ) :
    (s.respond now pick).map Prod.fst = (l.taken i now pick s).map fun f ↦ (f.tag, f.key) := by
  rcases htop : s.resp.top now pick with - | e
  · rw [Side.respond, DelayBucket.get_of_top_none htop, taken, htop]
    rfl
  · obtain ⟨f, hf⟩ := h.exists_taken htop i
    obtain ⟨b', hget, -⟩ := DelayBucket.get_of_top (taken_eq_some hf).2
    rw [Side.respond, hget, hf, Option.map_some, Option.map_some]
    dsimp only
    split <;> rfl

/-- **A step of the side is one of its ledger.** -/
theorem Mirrors.step (h : Mirrors l s) (which : ℕ → ℕ) (e : SideStep) :
    Mirrors (l.step which s e) (s.perform e) := by
  cases e with
  | request now tag addr latency => exact h.request now tag addr latency
  | answer now pick =>
    rw [Ledger.step]
    rcases htop : s.resp.top now pick with - | e
    · have hside : s.perform (.answer now pick) = s := by
        rw [Side.perform, Side.respond, DelayBucket.get_of_top_none htop]
        rfl
      rw [taken, htop, hside]
      exact h
    · obtain ⟨f, hf⟩ := h.exists_taken htop (which l.answered.length)
      rw [hf]
      exact h.answer hf

/-! ## Runs -/

theorem track_append (which : ℕ → ℕ) (steps steps' : List SideStep) :
    track which (steps ++ steps') = follow which steps' (track which steps) :=
  List.foldl_append

theorem track_concat (which : ℕ → ℕ) (steps : List SideStep) (e : SideStep) :
    track which (steps ++ [e]) = ((track which steps).1.perform e,
      (track which steps).2.step which (track which steps).1 e) :=
  track_append which steps [e]

/-- The ledger leaves the side as it is. -/
theorem track_side (which : ℕ → ℕ) (steps : List SideStep) :
    (track which steps).1 = steps.foldl Side.perform Side.init := by
  induction steps using List.reverseRecOn with
  | nil => rfl
  | append_singleton steps e ih =>
    rw [track_concat, List.foldl_append, List.foldl_cons, List.foldl_nil, ih]

/-- **The ledger mirrors its side** after all steps. -/
theorem mirrors_track (which : ℕ → ℕ) (steps : List SideStep) :
    Mirrors (track which steps).2 (track which steps).1 := by
  induction steps using List.reverseRecOn with
  | nil => exact mirrors_init
  | append_singleton steps e ih =>
    rw [track_concat]
    exact ih.step which e

theorem InOrder.of_concat {steps : List SideStep} {e : SideStep}
    (h : InOrder which (steps ++ [e])) :
    InOrder which steps ∧ Drains which (track which steps) e := by
  constructor
  · intro k hk
    have hdrains := h k (by rw [List.length_append]; omega)
    rwa [List.take_append_of_le_length hk.le, List.getElem_append_left hk] at hdrains
  · have hdrains := h steps.length (by rw [List.length_append, List.length_singleton]; omega)
    rwa [List.take_left, List.getElem_concat_length rfl] at hdrains

/-- **The requests are answered in order** where the answers drain in order. -/
theorem ordered_track {steps : List SideStep} (h : InOrder which steps) :
    FillOrder.Ordered (track which steps).2 := by
  induction steps using List.reverseRecOn with
  | nil => exact FillOrder.ordered_init
  | append_singleton steps e ih =>
    obtain ⟨hsteps, hdrains⟩ := h.of_concat
    have hordered := ih hsteps
    rw [track_concat]
    cases e with
    | request now tag addr latency => exact hordered.request _ tag addr
    | answer now pick =>
      dsimp only
      rw [Ledger.step]
      rcases htaken : (track which steps).2.taken (which (track which steps).2.answered.length) now
        pick (track which steps).1 with - | f
      · exact hordered
      · exact hordered.answer (taken_eq_some htaken).1 ((mirrors_track which steps).due_le htaken)
          (hdrains f htaken)

end Ledger

namespace Memory

/-- The ledgers of a run are beside its sides. -/
theorem track_run {iPorts dPorts : ℕ} {mem : Mem} {inputs : ℕ → MemoryInput iPorts dPorts}
    {n : ℕ} {t : History} (h : History.run mem inputs n = some t) (which : ℕ → ℕ) :
    (Ledger.track which t.iSide).1 = t.memory.i ∧ (Ledger.track which t.dSide).1 = t.memory.d := by
  rw [Ledger.track_side, Ledger.track_side]
  exact ⟨(run_sides h).1.symm, (run_sides h).2.symm⟩

/-- **When merged requests wait**: in every run whose answers drain in order, no merged request is
answered before the request that made its MSHR. -/
theorem merged_waits {iPorts dPorts : ℕ} {mem : Mem} {inputs : ℕ → MemoryInput iPorts dPorts}
    {n : ℕ} {t : History} (h : History.run mem inputs n = some t) {which : ℕ → ℕ}
    {steps : List SideStep} {s : Side}
    (hside : (steps, s) = (t.iSide, t.memory.i) ∨ (steps, s) = (t.dSide, t.memory.d))
    (hdrain : Ledger.InOrder which steps) :
    Ledger.Mirrors (Ledger.track which steps).2 s ∧ (Ledger.track which steps).2.Waits := by
  have hs : (Ledger.track which steps).1 = s := by
    rcases hside with hside | hside
    · obtain ⟨rfl, rfl⟩ := Prod.mk.inj hside
      exact (track_run h which).1
    · obtain ⟨rfl, rfl⟩ := Prod.mk.inj hside
      exact (track_run h which).2
  exact ⟨hs ▸ Ledger.mirrors_track which steps, (Ledger.ordered_track hdrain).waits⟩

/-- One request on the data port in each of the first cycles, with a clock that is as slow as half a
miss. -/
def slowly (reqs : List DataRequest) (k : ℕ) : MemoryInput 1 1 :=
  { dataOnly reqs k with now := 56000 * k }

/-- A word is read twice: the second read waits for the first. -/
theorem merged_waits_drained :
    ∃ t, History.run (fun _ ↦ 0) (slowly [⟨.read, 1, 0x10000, 0⟩, ⟨.read, 2, 0x10000, 0⟩]) 4 =
        some t ∧
      Ledger.Mirrors (Ledger.track (fun _ ↦ 0) t.dSide).2 t.memory.d ∧
        (Ledger.track (fun _ ↦ 0) t.dSide).2.Waits := by
  refine ⟨_, rfl, merged_waits (show History.run (fun _ ↦ 0)
    (slowly [⟨.read, 1, 0x10000, 0⟩, ⟨.read, 2, 0x10000, 0⟩]) 4 = some _ from rfl) (.inr rfl) ?_⟩
  decide +kernel

/-! ## A request that overtakes -/

/-- The state, and the ledger of the data side when the tags tell all requests apart. -/
structure Snapshot where
  mem : Mem
  memory : Memory
  ledger : Ledger

def History.snapshot (t : History) : Snapshot :=
  ⟨t.mem, t.memory, (Ledger.track (fun _ ↦ 0) t.dSide).2⟩

/-- One activation, if it passes the asserts. -/
def Snapshot.cycle (inp : MemoryInput 1 1) (r : Snapshot) : Snapshot :=
  (work inp r.mem r.memory).elim r fun w ↦
    ⟨w.mem, w.memory, (Ledger.follow (fun _ ↦ 0)
      (sideSteps inp.reset inp.now (List.ofFn inp.dPick)
        ((dataSteps inp r.mem r.memory).filterMap DataStep.onSide)) (r.memory.d, r.ledger)).2⟩

section Snapshot

variable {mem : Mem} {reqs : List DataRequest} {n m : ℕ} {t t' : History} {r : Snapshot}

theorem snapshot_succ (h : History.run mem (dataOnly reqs) n = some t)
    (hcycle : History.cycle (dataOnly reqs n) t = some t') :
    t'.snapshot = t.snapshot.cycle (dataOnly reqs n) := by
  obtain ⟨w, hwork, rfl⟩ := Option.map_eq_some_iff.mp hcycle
  have hd := (track_run h fun _ ↦ 0).2
  have hwork' : work (dataOnly reqs n) t.snapshot.mem t.snapshot.memory = some w := hwork
  rw [Snapshot.cycle, hwork', Option.elim_some, History.snapshot, History.snapshot,
    Ledger.track_append]
  dsimp only
  rw [← hd]

/-- Some cycles of a run. -/
theorem snapshot_add (h : ∀ t, History.run mem (dataOnly reqs) n = some t → t.snapshot = r) (m : ℕ)
    (t : History) (hrun : History.run mem (dataOnly reqs) (n + m) = some t) :
    t.snapshot = (List.range' n m).foldl (fun r k ↦ r.cycle (dataOnly reqs k)) r := by
  induction m generalizing t with
  | zero => exact h t hrun
  | succ m ih =>
    obtain ⟨t₀, hrun₀, hcycle⟩ := Option.bind_eq_some_iff.mp hrun
    rw [snapshot_succ hrun₀ hcycle, ih t₀ hrun₀, List.range'_1_concat, List.foldl_append]
    rfl

/-- A cycle without a request, before anything is due, only asks for a response. -/
theorem cycle_of_idle (hi : ∀ e ∈ t.memory.i.resp.pq, 500 * n < e.1)
    (hd : ∀ e ∈ t.memory.d.resp.pq, 500 * n < e.1)
    (hreq : (reqs.getD n ⟨.none, 0, 0, 0⟩).op = .none)
    (hcycle : History.cycle (dataOnly reqs n) t = some t') :
    t'.mem = t.mem ∧ t'.memory = t.memory ∧ t'.dSide = t.dSide ++ [.answer (500 * n) 0] := by
  have hofFn : List.ofFn (dataOnly reqs n).dReq = [reqs.getD n ⟨.none, 0, 0, 0⟩] := rfl
  obtain ⟨hrun, -, hside⟩ := cycle_of_not_due rfl hi hd (fun _ ↦ rfl) hcycle
  rw [hofFn, dRequests, dRequest, if_pos hreq, Option.bind_some, dRequests] at hrun
  obtain ⟨hmem, hmemory⟩ := Prod.mk.inj (Option.some.inj hrun)
  rw [hofFn, dSteps, dRequest, if_pos hreq, Option.elim_some, dSteps,
    List.filterMap_cons_none (by rw [DataStep.onSide, if_pos hreq])] at hside
  exact ⟨hmem.symm, hmemory.symm, hside⟩

/-- Some cycles without a request, before anything is due. -/
theorem snapshot_idle (h : ∀ t, History.run mem (dataOnly reqs) n = some t → t.snapshot = r)
    (hi : r.memory.i.resp.pq = []) (hd : ∀ e ∈ r.memory.d.resp.pq, 500 * (n + m) ≤ e.1)
    (hreqs : ∀ k < n + m, n ≤ k → (reqs.getD k ⟨.none, 0, 0, 0⟩).op = .none)
    (t : History) (hrun : History.run mem (dataOnly reqs) (n + m) = some t) : t.snapshot = r := by
  induction m generalizing t with
  | zero => exact h t hrun
  | succ m ih =>
    obtain ⟨t₀, hrun₀, hcycle⟩ := Option.bind_eq_some_iff.mp hrun
    have hr := ih (fun e he ↦ (hd e he).trans' (by omega)) (fun k hk ↦ hreqs k (by omega)) t₀ hrun₀
    subst hr
    have hdue : ∀ e ∈ t₀.memory.d.resp.pq, 500 * (n + m) < e.1 :=
      fun e he ↦ (show 500 * (n + m) < 500 * (n + (m + 1)) by omega).trans_le (hd e he)
    have hnone : ∀ e ∈ t₀.memory.i.resp.pq, 500 * (n + m) < e.1 :=
      fun e he ↦ absurd ((hi : t₀.memory.i.resp.pq = []) ▸ he) List.not_mem_nil
    obtain ⟨hmem, hmemory, hside⟩ :=
      cycle_of_idle hnone hdue (hreqs (n + m) (by omega) (by omega)) hcycle
    rw [History.snapshot, History.snapshot, hside, Ledger.track_concat,
      (track_run hrun₀ fun _ ↦ 0).2, Ledger.step_of_not_due hdue, hmem, hmemory]

end Snapshot

/-- Three lines are missed, and the first two asked for again. When the second is there, it is asked
for twice more. -/
def overtaken : List DataRequest :=
  [⟨.read, 1, 0x10100, 0⟩, ⟨.read, 2, 0x10000, 0⟩, ⟨.read, 3, 0x10200, 0⟩, ⟨.read, 4, 0x10100, 0⟩,
    ⟨.read, 5, 0x10100, 0⟩, ⟨.read, 6, 0x10000, 0⟩] ++ List.replicate 221 ⟨.none, 0, 0, 0⟩ ++
    [⟨.read, 7, 0x10000, 0⟩, ⟨.read, 8, 0x10000, 0⟩]

theorem overtaken_valid : ∀ req ∈ overtaken, req.Valid := by decide +kernel

/-- The first misses are waited for. -/
def waitingSnapshot : Snapshot :=
  (List.range' 0 6).foldl (fun r k ↦ r.cycle (dataOnly overtaken k)) ⟨fun _ ↦ 0, init, .init⟩

/-- The last request is merged with the seventh, and answered: the response to the sixth, which
was merged with the second, is taken out in between. -/
theorem not_waits_overtaken :
    ∃ t, History.run (fun _ ↦ 0) (dataOnly overtaken) 231 = some t ∧
      ¬(Ledger.track (fun _ ↦ 0) t.dSide).2.Waits := by
  obtain ⟨t, ht⟩ := exists_run (fun _ ↦ 0) (dataOnly_valid overtaken_valid) 231
  refine ⟨t, ht, fun hwaits ↦ ?_⟩
  have hstart : ∀ t, History.run (fun _ ↦ 0) (dataOnly overtaken) 6 = some t →
      t.snapshot = waitingSnapshot := by
    refine snapshot_add (n := 0) (fun t h ↦ ?_) 6
    obtain rfl := Option.some.inj h
    rfl
  have hidle : ∀ t, History.run (fun _ ↦ 0) (dataOnly overtaken) 224 = some t →
      t.snapshot = waitingSnapshot :=
    snapshot_idle (n := 6) (m := 218) hstart (by decide +kernel) (by decide +kernel)
      (by decide +kernel)
  have hend := snapshot_add hidle 7 t ht
  have hanswered : (Ledger.track (fun _ ↦ 0) t.dSide).2.answered = [0, 4, 3, 1, 2, 5, 7] := by
    refine (congrArg (fun r ↦ r.ledger.answered) hend).trans ?_
    decide +kernel
  have hmerged : (Ledger.track (fun _ ↦ 0) t.dSide).2.merged =
      [(3, 0), (4, 0), (5, 1), (7, 6)] := by
    refine (congrArg (fun r ↦ r.ledger.merged) hend).trans ?_
    decide +kernel
  have howner := hwaits [0, 4, 3, 1, 2, 5] 7 6 (by rw [hanswered]; decide)
    (by rw [hmerged]; decide)
  exact absurd howner (by decide)

end Memory

end Cse502
