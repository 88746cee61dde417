import Cse502.Warmup.Stages

/-!
# The handshake of the warm-up cache

A request that is accepted in cycle `n` is answered in cycle `n + 3`, or in cycle `n + 5` if it is a
write or update that hits. Until then the port is unavailable and nothing is answered, and when the
answer is there the cache is idle again, with the operation applied to its lines. A whole run is
idle cycles and such transactions, one after another.
-/

namespace Cse502.Warmup

open DirectMapped (Line Op)

/-! ## One transaction -/

/-- The block of a request is in its line. -/
def Request.Hits (lines : Index → Line Addr State Block) (r : Request) : Prop :=
  (lines (indexOf r.addr)).tag = tagOf r.addr

instance (lines : Index → Line Addr State Block) (r : Request) : Decidable (r.Hits lines) :=
  inferInstanceAs (Decidable (_ = _))

/-- The state a request is answered with: what was stored, what is stored now, or the miss code. -/
def Request.answerState (lines : Index → Line Addr State Block) : Request → State
  | .insert _ s _ => s
  | .read a => if (lines (indexOf a)).tag = tagOf a then (lines (indexOf a)).state else 0xff
  | .write a s _ | .update a s => if (lines (indexOf a)).tag = tagOf a then s else 0xff

/-- The request accepted in cycle `n` is answered in cycle `m`. -/
structure Served (inputs : ℕ → Input) (n m : ℕ) (r : Request) : Prop where
  lt : n + 2 < m
  busy : ∀ k, n < k → k < m → (System.run inputs k).cache.nxt.portAvailable = false ∧
    (System.run inputs k).cache.nxt.outReady = false
  idle : (System.run inputs m).cache.Idle
  answers : (System.run inputs m).cache.Answers r (r.answerState (System.run inputs n).lines)
  data : ∀ a, r = .read a → r.Hits (System.run inputs n).lines →
    (System.run inputs m).cache.nxt.outData = ((System.run inputs n).lines (indexOf a)).data
  lines : (System.run inputs m).lines = DirectMapped.apply (System.run inputs n).lines r.op
  miss : (∀ a s d, r ≠ .insert a s d) → ¬r.Hits (System.run inputs n).lines →
    ∀ k, n ≤ k → k ≤ m → (System.run inputs k).lines = (System.run inputs n).lines
  probe : (∀ a s d, r ≠ .insert a s d) →
    ((System.run inputs (n + 2)).TagMatches r.addr ↔ r.Hits (System.run inputs n).lines)

/-- The signals of the ports are all the first phase is about. -/
theorem Request.Drives.congr {sig sig' : Signals} {r : Request} (h : r.Drives sig)
    (hdata : sig'.data = sig.data) (hstate : sig'.state = sig.state) (htag : sig'.tag = sig.tag) :
    r.Drives sig' := by
  cases r with
  | insert a s d | read a | write a s d | update a s =>
    rw [Drives, hdata, hstate, htag]
    exact h

/-- The signals of the ports are all the second phase is about. -/
theorem Request.Rewrites.congr {sig sig' : Signals} {r : Request} (h : r.Rewrites sig)
    (hdata : sig'.data = sig.data) (hstate : sig'.state = sig.state) (htag : sig'.tag = sig.tag) :
    r.Rewrites sig' := by
  cases r with
  | insert a s d | read a => exact h
  | write a s d | update a s =>
    rw [Rewrites, hdata, hstate, htag]
    exact h

/-- A write or an update, whose first phase only reads the tag. -/
inductive Request.Probes : Request → Prop
  | write (a : Addr) (s : State) (d : Block) : Probes (.write a s d)
  | update (a : Addr) (s : State) : Probes (.update a s)

namespace Request.Probes

variable {r : Request} {lines : Index → Line Addr State Block} (h : r.Probes)

include h

theorem ne_read (a : Addr) : r ≠ .read a := by
  cases h <;> exact Request.noConfusion

theorem opstate_eq : r.opstate = .reading := by
  cases h <;> rfl

theorem not_inserts (i : Index) (t : Addr) : ¬DirectMapped.Inserts i t r.op := by
  rintro ⟨st, d, hop⟩
  cases h <;> cases hop

theorem apply_of_not_hits (hmiss : ¬r.Hits lines) : DirectMapped.apply lines r.op = lines := by
  cases h <;> exact if_neg hmiss

theorem answerState_of_not_hits (hmiss : ¬r.Hits lines) : r.answerState lines = 0xff := by
  cases h <;> exact if_neg hmiss

end Request.Probes

namespace System

variable {s : System} {r : Request} (inp : Input)

/-- The cache after a cycle. -/
theorem cycle_cache : (s.cycle inp).cache =
    (s.cache.work inp s.cache.nxt).driven (s.set1.work s.cache.nxt).2 (s.set2.work s.cache.nxt).2 :=
  rfl

/-- The lines while a request is in its first phase. -/
theorem lines_of_drives (hd : r.Drives s.cache.nxt) :
    (s.cycle inp).lines = match r with
      | .insert a st d => Function.update s.lines (indexOf a) ⟨tagOf a, st, d⟩
      | _ => s.lines := by
  cases r with
  | insert a st d => exact lines_cycle_write inp hd.2.1 (.inl hd.2.2) (.inl hd.1)
  | read a => exact lines_cycle inp hd.1.we hd.2.1.we hd.2.2.we
  | write a st d => exact lines_cycle inp hd.1.we hd.2.1.we hd.2.2.we
  | update a st => exact lines_cycle inp hd.1.we hd.2.1.we hd.2.2.we

/-- The lines while a request is in its second phase. -/
theorem lines_of_rewrites (hd : r.Rewrites s.cache.nxt) (hhit : r.Hits s.lines) :
    (s.cycle inp).lines = DirectMapped.apply s.lines r.op := by
  cases r with
  | insert a st d | read a => exact hd.elim
  | write a st d =>
    have hlines := lines_cycle_write inp hd.2.1 (.inr ⟨hd.2.2, hhit⟩) (.inl hd.1)
    rw [hlines]
    exact (if_pos hhit).symm
  | update a st =>
    have hlines := lines_cycle_write inp hd.2.1 (.inr ⟨hd.2.2, hhit⟩) (.inr ⟨hd.1, rfl⟩)
    rw [hlines]
    exact (if_pos hhit).symm

/-- What the SRAMs drive after the first phase. -/
theorem dout_of_drives (htwin : s.Twin) (hd : r.Drives s.cache.nxt) :
    match r with
      | .insert _ st _ => (s.cycle inp).cache.nxt.dout1.state = st
      | .read a => (s.cycle inp).cache.nxt.dout1.tag = (s.lines (indexOf a)).tag ∧
          (s.cycle inp).cache.nxt.dout1.state = (s.lines (indexOf a)).state ∧
          (s.cycle inp).cache.nxt.dout1.data = (s.lines (indexOf a)).data
      | .write a _ _ | .update a _ =>
          (s.cycle inp).cache.nxt.dout1.tag = (s.lines (indexOf a)).tag := by
  cases r with
  | insert a st d => exact hd.2.1.dout rfl htwin.statePtr
  | read a =>
    exact ⟨hd.2.2.dout rfl htwin.tagPtr, hd.2.1.dout rfl htwin.statePtr,
      hd.1.dout rfl htwin.dataPtr⟩
  | write a st d | update a st => exact hd.2.2.dout rfl htwin.tagPtr

/-- What the SRAMs of the states drive after the second phase. -/
theorem dout_of_rewrites (htwin : s.Twin) (hd : r.Rewrites s.cache.nxt) :
    match r with
      | .insert _ _ _ | .read _ => True
      | .write _ st _ | .update _ st => (s.cycle inp).cache.nxt.dout1.state = st := by
  cases r with
  | insert a st d | read a => trivial
  | write a st d | update a st => exact hd.2.1.dout rfl htwin.statePtr

/-- A cycle of waiting. -/
theorem wait_cycle {opstate : OpState} (h : s.cache.Serving r opstate 1) :
    (s.cycle inp).cache.Serving r opstate 0 ∧
      (s.cycle inp).cache.nxt.data = s.cache.nxt.data ∧
      (s.cycle inp).cache.nxt.state = s.cache.nxt.state ∧
      (s.cycle inp).cache.nxt.tag = s.cache.nxt.tag := by
  obtain ⟨hserving, hports⟩ := h.wait inp
  exact ⟨hserving.driven _ _, hports⟩

/-- A cycle in which an insert or a read is answered. -/
theorem finish_cycle {opstate : OpState} (htwin : s.Twin) (h : s.cache.Serving r opstate 0)
    (hd : r.Drives s.cache.nxt) :
    match r with
      | .insert _ _ _ =>
          (s.cycle inp).cache.Idle ∧ (s.cycle inp).cache.Answers r s.cache.nxt.dout1.state
      | .read a => (s.cycle inp).cache.Idle ∧
          if s.cache.nxt.dout1.tag = tagOf a then
            (s.cycle inp).cache.Answers r s.cache.nxt.dout1.state ∧
              (s.cycle inp).cache.nxt.outData = s.cache.nxt.dout1.data
          else (s.cycle inp).cache.Answers r 0xff
      | .write _ _ _ | .update _ _ => True := by
  have hwork := h.work inp
  rw [cycle_cache, hwork]
  cases r with
  | write a st d | update a st => trivial
  | insert a st d =>
    have hfinish : s.cache.finish s.cache.nxt = _ := Cache.finish_of_insert h.operation
    rw [hfinish]
    obtain ⟨hidle, hanswers⟩ := Cache.finishInsert_spec
      ({ s.cache with nxt.portAvailable := true } : Cache) s.cache.nxt htwin.dout2 rfl h.servaddr
    exact ⟨hidle.driven _ _, hanswers.driven _ _⟩
  | read a =>
    have hfinish : s.cache.finish s.cache.nxt = _ := Cache.finish_of_read h.operation
    rw [hfinish]
    obtain ⟨hidle, hanswers⟩ := Cache.finishRead_spec
      ({ s.cache with nxt.portAvailable := true } : Cache) s.cache.nxt htwin.dout2 rfl h.servaddr
      hd.1.we hd.2.1.we hd.2.2.we
    refine ⟨hidle.driven _ _, ?_⟩
    have haddr : (Request.read a).addr = a := rfl
    rw [haddr] at hanswers
    split_ifs at hanswers ⊢
    · exact ⟨hanswers.1.driven _ _, hanswers.2⟩
    · exact hanswers.driven _ _

/-- A cycle in which a write or update has read the tag. -/
theorem probe_cycle (htwin : s.Twin) (h : s.cache.Serving r .reading 0)
    (hd : r.Drives s.cache.nxt) (hprobes : r.Probes) :
    if s.cache.nxt.dout1.tag = tagOf r.addr then
      (s.cycle inp).cache.Serving r .updating 1 ∧ r.Rewrites (s.cycle inp).cache.nxt
    else (s.cycle inp).cache.Idle ∧ (s.cycle inp).cache.Answers r 0xff := by
  have hwork := h.work inp
  rw [cycle_cache, hwork]
  cases hprobes with
  | write a st d =>
    have hfinish : s.cache.finish s.cache.nxt = _ := Cache.finish_of_write h.operation
    rw [hfinish]
    have hspec := Cache.finishWrite_reading_spec
      ({ s.cache with nxt.portAvailable := true } : Cache) s.cache.nxt htwin.dout2 rfl h.operation
      h.servaddr h.kept h.opstate hd.1 hd.2.1
    split_ifs at hspec ⊢
    · exact ⟨hspec.1.driven _ _, hspec.2⟩
    · exact ⟨hspec.1.driven _ _, hspec.2.driven _ _⟩
  | update a st =>
    have hfinish : s.cache.finish s.cache.nxt = _ := Cache.finish_of_update h.operation
    rw [hfinish]
    have hspec := Cache.finishUpdate_reading_spec
      ({ s.cache with nxt.portAvailable := true } : Cache) s.cache.nxt htwin.dout2 rfl h.operation
      h.servaddr h.kept h.opstate hd.1 hd.2.1
    split_ifs at hspec ⊢
    · exact ⟨hspec.1.driven _ _, hspec.2⟩
    · exact ⟨hspec.1.driven _ _, hspec.2.driven _ _⟩

/-- A cycle in which a write or update that hit is answered. -/
theorem written_cycle (htwin : s.Twin) (h : s.cache.Serving r .updating 0)
    (hd : r.Rewrites s.cache.nxt) :
    (s.cycle inp).cache.Idle ∧ (s.cycle inp).cache.Answers r s.cache.nxt.dout1.state := by
  have hwork := h.work inp
  rw [cycle_cache, hwork]
  cases r with
  | insert a st d | read a => exact hd.elim
  | write a st d =>
    have hfinish : s.cache.finish s.cache.nxt = _ := Cache.finish_of_write h.operation
    rw [hfinish]
    obtain ⟨hidle, hanswers⟩ := Cache.finishWrite_updating_spec
      ({ s.cache with nxt.portAvailable := true } : Cache) s.cache.nxt htwin.dout2 rfl h.servaddr
      h.opstate hd.2.2
    exact ⟨hidle.driven _ _, hanswers.driven _ _⟩
  | update a st =>
    have hfinish : s.cache.finish s.cache.nxt = _ := Cache.finish_of_update h.operation
    rw [hfinish]
    obtain ⟨hidle, hanswers⟩ := Cache.finishUpdate_updating_spec
      ({ s.cache with nxt.portAvailable := true } : Cache) s.cache.nxt htwin.dout2 rfl h.servaddr
      h.opstate hd.1 hd.2.2
    exact ⟨hidle.driven _ _, hanswers.driven _ _⟩

/-- The cycle in which a request is accepted. -/
theorem accept_cycle (h : s.cache.Idle) (hreq : inp.request = some r) :
    (s.cycle inp).cache.Serving r r.opstate 1 ∧ r.Drives (s.cycle inp).cache.nxt ∧
      (s.cycle inp).lines = s.lines := by
  obtain ⟨hserving, hdrives⟩ := h.accept hreq
  exact ⟨hserving.driven _ _, hdrives.congr rfl rfl rfl,
    lines_cycle inp h.data.we h.state.we h.tag.we⟩

/-- A cycle without a request. -/
theorem quiet_cycle (h : s.cache.Idle) (hreq : inp.request = none) :
    (s.cycle inp).cache.Idle ∧ (s.cycle inp).cache.nxt.outReady = false ∧
      (s.cycle inp).lines = s.lines := by
  obtain ⟨hidle, hready⟩ := h.quiet hreq
  exact ⟨hidle.driven _ _, hready, lines_cycle inp h.data.we h.state.we h.tag.we⟩

end System

section Transaction

variable (inputs : ℕ → Input) {n : ℕ}

open Cse502.Warmup.System (run twin_run)

/-- The first two cycles of every request. -/
theorem first_phase {r : Request} (hidle : (run inputs n).cache.Idle)
    (hreq : (inputs n).request = some r) :
    ((run inputs (n + 1)).cache.Serving r r.opstate 1 ∧
        (run inputs (n + 1)).lines = (run inputs n).lines) ∧
      (run inputs (n + 2)).cache.Serving r r.opstate 0 ∧
      r.Drives (run inputs (n + 1)).cache.nxt ∧ r.Drives (run inputs (n + 2)).cache.nxt := by
  obtain ⟨hserving, hdrives, hlines⟩ := System.accept_cycle (inputs n) hidle hreq
  obtain ⟨hserving', hdata, hstate, htag⟩ := System.wait_cycle (inputs (n + 1)) hserving
  exact ⟨⟨hserving, hlines⟩, hserving', hdrives, hdrives.congr hdata hstate htag⟩

/-- The port is unavailable while a request is served. -/
theorem busy_of_serving {s : System} {r : Request} {opstate : OpState} {wait : ℕ}
    (h : s.cache.Serving r opstate wait) :
    s.cache.nxt.portAvailable = false ∧ s.cache.nxt.outReady = false :=
  ⟨h.portAvailable, h.outReady⟩

/-- **An insert is served.** -/
theorem served_insert {a : Addr} {st : State} {d : Block} (hidle : (run inputs n).cache.Idle)
    (hreq : (inputs n).request = some (.insert a st d)) :
    Served inputs n (n + 3) (.insert a st d) := by
  obtain ⟨⟨hserving1, hlines1⟩, hserving2, hdrives1, hdrives2⟩ := first_phase inputs hidle hreq
  have hlines2 : (run inputs (n + 2)).lines = _ :=
    System.lines_of_drives (inputs (n + 1)) hdrives1
  have hlines3 : (run inputs (n + 3)).lines = _ :=
    System.lines_of_drives (inputs (n + 2)) hdrives2
  have hdout : (run inputs (n + 2)).cache.nxt.dout1.state = st :=
    System.dout_of_drives (inputs (n + 1)) (twin_run inputs (n + 1)) hdrives1
  obtain ⟨hidle3, hanswers⟩ :=
    System.finish_cycle (inputs (n + 2)) (twin_run inputs (n + 2)) hserving2 hdrives2
  rw [hdout] at hanswers
  rw [hlines2, hlines1] at hlines3
  dsimp only at hlines3
  rw [Function.update_idem] at hlines3
  refine ⟨by omega, fun k hk hk3 ↦ ?_, hidle3, hanswers, fun a h ↦ Request.noConfusion h, hlines3,
    fun h ↦ absurd rfl (h a st d), fun h ↦ absurd rfl (h a st d)⟩
  obtain rfl | rfl : k = n + 1 ∨ k = n + 2 := by omega
  · exact busy_of_serving hserving1
  · exact busy_of_serving hserving2

/-- **A read is served.** -/
theorem served_read {a : Addr} (hidle : (run inputs n).cache.Idle)
    (hreq : (inputs n).request = some (.read a)) : Served inputs n (n + 3) (.read a) := by
  obtain ⟨⟨hserving1, hlines1⟩, hserving2, hdrives1, hdrives2⟩ := first_phase inputs hidle hreq
  have hlines2 : (run inputs (n + 2)).lines = (run inputs (n + 1)).lines :=
    System.lines_of_drives (inputs (n + 1)) hdrives1
  have hlines3 : (run inputs (n + 3)).lines = (run inputs (n + 2)).lines :=
    System.lines_of_drives (inputs (n + 2)) hdrives2
  obtain ⟨htag, hstate, hdata⟩ :=
    System.dout_of_drives (inputs (n + 1)) (twin_run inputs (n + 1)) hdrives1
  obtain ⟨hidle3, hanswers⟩ :=
    System.finish_cycle (inputs (n + 2)) (twin_run inputs (n + 2)) hserving2 hdrives2
  rw [hlines1] at htag hstate hdata hlines2
  rw [hlines2] at hlines3
  change (run inputs (n + 2)).cache.nxt.dout1.tag = _ at htag
  change (run inputs (n + 2)).cache.nxt.dout1.state = _ at hstate
  change (run inputs (n + 2)).cache.nxt.dout1.data = _ at hdata
  rw [htag, hstate, hdata] at hanswers
  refine ⟨by omega, fun k hk hk3 ↦ ?_, hidle3, ?_, ?_, hlines3, ?_, ?_⟩
  · obtain rfl | rfl : k = n + 1 ∨ k = n + 2 := by omega
    · exact busy_of_serving hserving1
    · exact busy_of_serving hserving2
  · rw [Request.answerState]
    split_ifs at hanswers ⊢
    · exact hanswers.1
    · exact hanswers
  · rintro a' h hhit
    obtain rfl := Request.read.inj h
    have htag' : ((run inputs n).lines (indexOf a)).tag = tagOf a := hhit
    rw [if_pos htag'] at hanswers
    exact hanswers.2
  · intro _ _ k hk hk3
    obtain rfl | rfl | rfl | rfl : k = n ∨ k = n + 1 ∨ k = n + 2 ∨ k = n + 3 := by omega
    · rfl
    · exact hlines1
    · exact hlines2
    · exact hlines3
  · intro _
    rw [System.TagMatches, (twin_run inputs (n + 2)).dout2, or_self, htag]
    rfl

/-- A write or update has read the tag of its line, and the lines are as they were. -/
structure Probed (n : ℕ) (r : Request) : Prop where
  serving1 : (run inputs (n + 1)).cache.Serving r .reading 1
  serving2 : (run inputs (n + 2)).cache.Serving r .reading 0
  drives : r.Drives (run inputs (n + 2)).cache.nxt
  lines1 : (run inputs (n + 1)).lines = (run inputs n).lines
  lines2 : (run inputs (n + 2)).lines = (run inputs n).lines
  lines3 : (run inputs (n + 3)).lines = (run inputs n).lines
  tag : (run inputs (n + 2)).cache.nxt.dout1.tag = ((run inputs n).lines (indexOf r.addr)).tag

theorem probed {r : Request} (h : r.Probes) (hidle : (run inputs n).cache.Idle)
    (hreq : (inputs n).request = some r) : Probed inputs n r := by
  obtain ⟨⟨hserving1, hlines1⟩, hserving2, hdrives1, hdrives2⟩ := first_phase inputs hidle hreq
  rw [h.opstate_eq] at hserving1 hserving2
  have hsame : ∀ {s : System} {inp : Input}, r.Drives s.cache.nxt →
      (s.cycle inp).lines = s.lines := by
    intro s inp hd
    have hlines := System.lines_of_drives inp hd
    cases h <;> exact hlines
  have hlines2 : (run inputs (n + 2)).lines = (run inputs n).lines :=
    (hsame hdrives1).trans hlines1
  have hlines3 : (run inputs (n + 3)).lines = (run inputs n).lines :=
    (hsame hdrives2).trans hlines2
  have hdout := System.dout_of_drives (inputs (n + 1)) (twin_run inputs (n + 1)) hdrives1
  rw [hlines1] at hdout
  refine ⟨hserving1, hserving2, hdrives2, hlines1, hlines2, hlines3, ?_⟩
  cases h <;> exact hdout

section Probed

variable {inputs} {r : Request} (hprobed : Probed inputs n r) (h : r.Probes)

include hprobed

/-- The tag that was read tells whether the request hits. -/
theorem Probed.tagMatches_iff :
    (run inputs (n + 2)).TagMatches r.addr ↔ r.Hits (run inputs n).lines := by
  rw [System.TagMatches, (twin_run inputs (n + 2)).dout2, or_self, hprobed.tag]
  rfl

include h

/-- A write or update that hits has a second phase. -/
theorem Probed.served_hit (hhit : r.Hits (run inputs n).lines) : Served inputs n (n + 5) r := by
  have hcycle := System.probe_cycle (inputs (n + 2)) (twin_run inputs (n + 2)) hprobed.serving2
    hprobed.drives h
  have htag : ((run inputs n).lines (indexOf r.addr)).tag = tagOf r.addr := hhit
  rw [hprobed.tag, if_pos htag] at hcycle
  obtain ⟨hserving3, hrewrites3⟩ := hcycle
  obtain ⟨hserving4, hdata, hstate, htag'⟩ := System.wait_cycle (inputs (n + 3)) hserving3
  have hrewrites4 := hrewrites3.congr hdata hstate htag'
  obtain ⟨hidle5, hanswers⟩ :=
    System.written_cycle (inputs (n + 4)) (twin_run inputs (n + 4)) hserving4 hrewrites4
  -- the SRAMs perform the operation in both cycles of the phase
  have hlines4 : (run inputs (n + 4)).lines = DirectMapped.apply (run inputs n).lines r.op := by
    rw [← hprobed.lines3] at hhit ⊢
    exact System.lines_of_rewrites (inputs (n + 3)) hrewrites3 hhit
  have hhit4 : r.Hits (run inputs (n + 4)).lines := by
    rw [Request.Hits, hlines4, DirectMapped.tag_apply r.op (h.not_inserts _)]
    exact hhit
  have hlines5 : (run inputs (n + 5)).lines =
      DirectMapped.apply (run inputs (n + 4)).lines r.op :=
    System.lines_of_rewrites (inputs (n + 4)) hrewrites4 hhit4
  rw [hlines4, DirectMapped.apply_apply] at hlines5
  have hdout : (run inputs (n + 4)).cache.nxt.dout1.state = r.answerState (run inputs n).lines := by
    have hdout := System.dout_of_rewrites (inputs (n + 3)) (twin_run inputs (n + 3)) hrewrites3
    cases h <;> exact hdout.trans (if_pos hhit).symm
  refine ⟨by omega, fun k hk hk5 ↦ ?_, hidle5, ?_, fun a hr ↦ absurd hr (h.ne_read a), hlines5,
    fun _ hmiss ↦ absurd hhit hmiss, fun _ ↦ hprobed.tagMatches_iff⟩
  · obtain rfl | rfl | rfl | rfl : k = n + 1 ∨ k = n + 2 ∨ k = n + 3 ∨ k = n + 4 := by omega
    · exact busy_of_serving hprobed.serving1
    · exact busy_of_serving hprobed.serving2
    · exact busy_of_serving hserving3
    · exact busy_of_serving hserving4
  · rw [← hdout]
    exact hanswers

/-- A write or update that misses is answered at once. -/
theorem Probed.served_miss (hmiss : ¬r.Hits (run inputs n).lines) :
    Served inputs n (n + 3) r := by
  have hcycle := System.probe_cycle (inputs (n + 2)) (twin_run inputs (n + 2)) hprobed.serving2
    hprobed.drives h
  have htag : ((run inputs n).lines (indexOf r.addr)).tag ≠ tagOf r.addr := hmiss
  rw [hprobed.tag, if_neg htag] at hcycle
  obtain ⟨hidle3, hanswers⟩ := hcycle
  refine ⟨by omega, fun k hk hk3 ↦ ?_, hidle3, ?_, fun a hr ↦ absurd hr (h.ne_read a),
    hprobed.lines3.trans (h.apply_of_not_hits hmiss).symm, fun _ _ k hk hk3 ↦ ?_,
    fun _ ↦ hprobed.tagMatches_iff⟩
  · obtain rfl | rfl : k = n + 1 ∨ k = n + 2 := by omega
    · exact busy_of_serving hprobed.serving1
    · exact busy_of_serving hprobed.serving2
  · rw [h.answerState_of_not_hits hmiss]
    exact hanswers
  · obtain rfl | rfl | rfl | rfl : k = n ∨ k = n + 1 ∨ k = n + 2 ∨ k = n + 3 := by omega
    · rfl
    · exact hprobed.lines1
    · exact hprobed.lines2
    · exact hprobed.lines3

end Probed

/-- **A write or update is served**, in two phases if it hits. -/
theorem served_probe {r : Request} (h : r.Probes) (hidle : (run inputs n).cache.Idle)
    (hreq : (inputs n).request = some r) : ∃ m, Served inputs n m r := by
  have hprobed := probed inputs h hidle hreq
  by_cases hhit : r.Hits (run inputs n).lines
  · exact ⟨n + 5, hprobed.served_hit h hhit⟩
  · exact ⟨n + 3, hprobed.served_miss h hhit⟩

/-- **Every request an idle cache accepts is served.** -/
theorem exists_served {r : Request} (hidle : (run inputs n).cache.Idle)
    (hreq : (inputs n).request = some r) : ∃ m, Served inputs n m r := by
  cases r with
  | insert a st d => exact ⟨n + 3, served_insert inputs hidle hreq⟩
  | read a => exact ⟨n + 3, served_read inputs hidle hreq⟩
  | write a st d => exact served_probe inputs (.write a st d) hidle hreq
  | update a st => exact served_probe inputs (.update a st) hidle hreq

end Transaction

/-! ## Whole runs -/

section Run

variable (inputs : ℕ → Input)

open Cse502.Warmup.System (run twin_run)

/-- The request is accepted in cycle `n`: it is made while the port is available. -/
def Accepts (n : ℕ) (r : Request) : Prop :=
  (run inputs n).cache.nxt.portAvailable = true ∧ (inputs n).request = some r

/-- Where a run can be: before any request or after a cycle without one, at an answer, or in
between.
-/
inductive Phase (n : ℕ) : Prop
  | quiet (hidle : (run inputs n).cache.Idle)
      (hready : (run inputs n).cache.nxt.outReady = false)
  | answer (n₀ : ℕ) (r : Request) (haccepts : Accepts inputs n₀ r) (hserved : Served inputs n₀ n r)
  | serving (n₀ m : ℕ) (r : Request) (haccepts : Accepts inputs n₀ r)
      (hserved : Served inputs n₀ m r) (hn₀ : n₀ < n) (hm : n < m)

variable {inputs}

theorem Phase.next {n : ℕ} (h : Phase inputs n) : Phase inputs (n + 1) := by
  have hidle : (run inputs n).cache.Idle → Phase inputs (n + 1) := by
    intro hidle
    cases hreq : (inputs n).request with
    | none =>
      obtain ⟨hidle', hready, -⟩ := System.quiet_cycle (inputs n) hidle hreq
      exact .quiet hidle' hready
    | some r =>
      obtain ⟨m, hserved⟩ := exists_served inputs hidle hreq
      have hlt := hserved.lt
      exact .serving n m r ⟨hidle.portAvailable, hreq⟩ hserved (Nat.lt_succ_self n) (by omega)
  cases h with
  | quiet h _ => exact hidle h
  | answer n₀ r _ hserved => exact hidle hserved.idle
  | serving n₀ m r haccepts hserved hn₀ hm =>
    rcases Nat.lt_or_ge (n + 1) m with hlt | hge
    · exact .serving n₀ m r haccepts hserved (Nat.lt_succ_of_lt hn₀) hlt
    · obtain rfl : n + 1 = m := by omega
      exact .answer n₀ r haccepts hserved

theorem phase (inputs : ℕ → Input) (n : ℕ) : Phase inputs n := by
  induction n with
  | zero => exact .quiet ⟨rfl, rfl, rfl, rfl, ⟨rfl, rfl⟩, ⟨rfl, rfl⟩, ⟨rfl, rfl⟩⟩ rfl
  | succ n ih => exact ih.next

/-- A request is accepted by an idle cache only. -/
theorem Accepts.idle {n : ℕ} {r : Request} (h : Accepts inputs n r) :
    (run inputs n).cache.Idle := by
  cases phase inputs n with
  | quiet hidle _ => exact hidle
  | answer _ _ _ hserved => exact hserved.idle
  | serving n₀ m _ _ hserved hn₀ hm =>
    exact absurd (h.1.symm.trans (hserved.busy n hn₀ hm).1) Bool.noConfusion

/-- **Every accepted request is served.** -/
theorem Accepts.served {n : ℕ} {r : Request} (h : Accepts inputs n r) :
    ∃ m, Served inputs n m r := exists_served inputs h.idle h.2

variable (inputs)

/-- The pulse of `out_ready` in cycle `m` is the answer to the request accepted in cycle `n`. -/
structure AnsweredAt (n m : ℕ) (r : Request) : Prop where
  lt : n < m
  outReady : (run inputs m).cache.nxt.outReady = true
  outToken : (run inputs m).cache.nxt.outToken = r.addr
  busy : ∀ k, n < k → k < m → (run inputs k).cache.nxt.portAvailable = false ∧
    (run inputs k).cache.nxt.outReady = false

variable {inputs}

theorem Served.answeredAt {n m : ℕ} {r : Request} (h : Served inputs n m r) :
    AnsweredAt inputs n m r :=
  ⟨by have := h.lt; omega, h.answers.outReady, h.answers.outToken, h.busy⟩

/-- A request has one answer. -/
theorem AnsweredAt.unique {n m m' : ℕ} {r r' : Request} (h : AnsweredAt inputs n m r)
    (h' : AnsweredAt inputs n m' r') : m = m' := by
  rcases Nat.lt_trichotomy m m' with hlt | rfl | hlt
  · exact absurd (h.outReady.symm.trans (h'.busy m h.lt hlt).2) Bool.noConfusion
  · rfl
  · exact absurd (h'.outReady.symm.trans (h.busy m' h'.lt hlt).2) Bool.noConfusion

/-- No request is accepted between another and its answer. -/
theorem AnsweredAt.le_of_accepts {n n' m : ℕ} {r r' : Request} (h : AnsweredAt inputs n m r)
    (h' : Accepts inputs n' r') (hlt : n < n') : m ≤ n' := by
  by_contra hge
  exact absurd (h'.1.symm.trans (h.busy n' hlt (not_le.mp hge)).1) Bool.noConfusion

variable (inputs)

/-- The handshake: accepted requests and pulses of `out_ready` correspond, in order, and a pulse
lasts one cycle. -/
structure Handshake : Prop where
  answered : ∀ n r, Accepts inputs n r → ∃! m, AnsweredAt inputs n m r
  accepted : ∀ m, (run inputs m).cache.nxt.outReady = true →
    ∃! n, ∃ r, Accepts inputs n r ∧ AnsweredAt inputs n m r
  ordered : ∀ n n' m m' r r', Accepts inputs n r → Accepts inputs n' r' →
    AnsweredAt inputs n m r → AnsweredAt inputs n' m' r' → n < n' → m < m'
  pulse : ∀ m, (run inputs m).cache.nxt.outReady = true →
    (run inputs (m + 1)).cache.nxt.outReady = false

/-- **The handshake of the warm-up cache**, for every input history. -/
theorem handshake : Handshake inputs where
  answered n r h := by
    obtain ⟨m, hserved⟩ := h.served
    exact ⟨m, hserved.answeredAt, fun m' h' ↦ h'.unique hserved.answeredAt⟩
  accepted m hm := by
    cases phase inputs m with
    | quiet _ hready => exact absurd (hm.symm.trans hready) Bool.noConfusion
    | serving n₀ m' r _ hserved hn₀ hm' =>
      exact absurd (hm.symm.trans (hserved.busy m hn₀ hm').2) Bool.noConfusion
    | answer n₀ r haccepts hserved =>
      refine ⟨n₀, ⟨r, haccepts, hserved.answeredAt⟩, ?_⟩
      rintro n ⟨r', haccepts', hanswered⟩
      have hlt := hserved.lt
      rcases Nat.lt_trichotomy n n₀ with hn | rfl | hn
      · have hle := hanswered.le_of_accepts haccepts hn
        omega
      · rfl
      · have hle := hserved.answeredAt.le_of_accepts haccepts' hn
        have hlt' := hanswered.lt
        omega
  ordered n n' m m' r r' _ haccepts' h h' hn :=
    (h.le_of_accepts haccepts' hn).trans_lt h'.lt
  pulse m hm := by
    cases phase inputs (m + 1) with
    | quiet _ hready => exact hready
    | serving n₀ m' r _ hserved hn₀ hm' => exact (hserved.busy (m + 1) hn₀ hm').2
    | answer n₀ r _ hserved =>
      have hlt := hserved.lt
      exact absurd (hm.symm.trans (hserved.busy m (by omega) (Nat.lt_succ_self m)).2)
        Bool.noConfusion

end Run

end Cse502.Warmup
