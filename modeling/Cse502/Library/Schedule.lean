import Mathlib.Tactic

/-!
# Processes evaluated in any order within a clock cycle

A synchronous system with a set of processes that share state. In every clock cycle each process
runs once, in an order the scheduler picks anew, and the cycle ends with a commit of the values
written to signals. An invariant that every single process keeps is kept by every schedule; an
invariant that only holds at the end of a cycle may use, while the cycle is under way, which
processes have already run.
-/

namespace Schedule

variable {σ ι π : Type*}

/-- One clock cycle: what it takes from outside, and the order of its processes. -/
structure Cycle (ι : Type*) {π : Type*} (all : List π) where
  input : ι
  order : List π
  perm : order.Perm all

variable {all : List π} (act : ι → π → σ → σ) (commit : ι → σ → σ)

/-- Run processes one after another. -/
def runOrder (i : ι) (order : List π) (s : σ) : σ := order.foldl (fun s p ↦ act i p s) s

/-- One clock cycle. -/
def cycle (c : Cycle ι all) (s : σ) : σ := commit c.input (runOrder act c.input c.order s)

/-- A run of clock cycles. -/
def run (cs : List (Cycle ι all)) (s : σ) : σ := cs.foldl (fun s c ↦ cycle act commit c s) s

@[simp] theorem runOrder_nil (i : ι) (s : σ) : runOrder act i [] s = s := rfl

theorem runOrder_concat (i : ι) (order : List π) (p : π) (s : σ) :
    runOrder act i (order ++ [p]) s = act i p (runOrder act i order s) := by
  rw [runOrder, List.foldl_append]
  rfl

@[simp] theorem run_nil (s : σ) : run act commit ([] : List (Cycle ι all)) s = s := rfl

theorem run_concat (cs : List (Cycle ι all)) (c : Cycle ι all) (s : σ) :
    run act commit (cs ++ [c]) s = cycle act commit c (run act commit cs s) := by
  rw [run, List.foldl_append]
  rfl

variable {act commit}

/-- Inside a cycle, with the processes that have run so far. -/
theorem runOrder_induction {i : ι} {order : List π} (hnodup : order.Nodup) {s : σ}
    {Q : List π → σ → Prop} (h0 : Q [] s)
    (hstep : ∀ done p t, p ∈ order → p ∉ done → Q done t → Q (done ++ [p]) (act i p t)) :
    Q order (runOrder act i order s) := by
  induction order using List.reverseRecOn with
  | nil => exact h0
  | append_singleton order p ih =>
    rw [List.nodup_append] at hnodup
    have hp : p ∉ order := fun hmem ↦ hnodup.2.2 p hmem p (List.mem_singleton_self p) rfl
    rw [runOrder_concat]
    refine hstep order p _ (by simp) hp (ih hnodup.1 fun done q t hq ↦ ?_)
    exact hstep done q t (List.mem_append_left _ hq)

/-- An invariant of every process, inside a cycle. -/
theorem runOrder_invariant {I : σ → Prop} {i : ι} (hact : ∀ p s, I s → I (act i p s))
    (order : List π) {s : σ} (h : I s) : I (runOrder act i order s) := by
  induction order generalizing s with
  | nil => exact h
  | cons p order ih => exact ih (hact p s h)

/-- **An invariant of every process is an invariant of every schedule.** -/
theorem run_invariant {I : σ → Prop} (hact : ∀ i p s, I s → I (act i p s))
    (hcommit : ∀ i s, I s → I (commit i s)) {s : σ} (h : I s) (cs : List (Cycle ι all)) :
    I (run act commit cs s) := by
  induction cs using List.reverseRecOn with
  | nil => exact h
  | append_singleton cs c ih =>
    rw [run_concat]
    exact hcommit _ _ (runOrder_invariant (hact c.input) c.order ih)

/-- An invariant of whole cycles. -/
theorem run_invariant_of_cycle {I : σ → Prop}
    (hcycle : ∀ (c : Cycle ι all) s, I s → I (cycle act commit c s)) {s : σ} (h : I s)
    (cs : List (Cycle ι all)) : I (run act commit cs s) := by
  induction cs using List.reverseRecOn with
  | nil => exact h
  | append_singleton cs c ih =>
    rw [run_concat]
    exact hcycle _ _ ih

/-! ## Systems that carry a record -/

section Map

variable {τ : Type*} {act' : ι → π → τ → τ} {commit' : ι → τ → τ} {f : σ → τ}

theorem runOrder_map {i : ι} (hact : ∀ p s, f (act i p s) = act' i p (f s)) (order : List π)
    (s : σ) : f (runOrder act i order s) = runOrder act' i order (f s) := by
  induction order generalizing s with
  | nil => rfl
  | cons p order ih => exact (ih (act i p s)).trans (congrArg (runOrder act' i order) (hact p s))

/-- What every process and the commit respect, every run respects. -/
theorem run_map (hact : ∀ i p s, f (act i p s) = act' i p (f s))
    (hcommit : ∀ i s, f (commit i s) = commit' i (f s)) (cs : List (Cycle ι all)) (s : σ) :
    f (run act commit cs s) = run act' commit' cs (f s) := by
  induction cs using List.reverseRecOn with
  | nil => rfl
  | append_singleton cs c ih =>
    rw [run_concat, run_concat, cycle, cycle, hcommit, runOrder_map (hact c.input), ih]

end Map

/-! ## Two systems side by side -/

section Related

variable {τ ι' π' : Type*} {act' : ι' → π' → τ → τ} {f : π → Option π'}

/-- Inside a cycle of two systems, the second of which has only some of the processes. -/
theorem runOrder_related {i : ι} {i' : ι'} {order : List π} (hnodup : order.Nodup) {s : σ} {t : τ}
    {Q : List π → σ → τ → Prop} (h0 : Q [] s t)
    (hstep : ∀ done p s t, p ∈ order → p ∉ done → Q done s t →
      Q (done ++ [p]) (act i p s) ((f p).elim t fun p' ↦ act' i' p' t)) :
    Q order (runOrder act i order s) (runOrder act' i' (order.filterMap f) t) := by
  induction order using List.reverseRecOn with
  | nil => exact h0
  | append_singleton order p ih =>
    rw [List.nodup_append] at hnodup
    have hp : p ∉ order := fun hmem ↦ hnodup.2.2 p hmem p (List.mem_singleton_self p) rfl
    have hprev := ih hnodup.1 fun done q s t hq ↦ hstep done q s t (List.mem_append_left _ hq)
    have hnext := hstep order p _ _ (by simp) hp hprev
    rw [runOrder_concat, List.filterMap_append]
    cases hf : f p with
    | none => simpa [hf] using hnext
    | some p' =>
      rw [List.filterMap_cons_some hf, List.filterMap_nil, runOrder_concat]
      rwa [hf] at hnext

end Related

end Schedule
