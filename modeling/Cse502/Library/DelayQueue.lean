import Mathlib.Tactic

/-!
# Queues that hold items back

An item is put into the queue with the time from which it may leave, its due time, and the items
leave one at a time, always one that is due first. Items can be put in at any time, also items that
are due at once.

That they leave in the order of their due times rests on time going on: an item that has left was
due by then, and one put in later is due later. So every due time in the queue is at least every
due time of an item that has left, which is the invariant of `Reachable.ordered`.
-/

namespace DelayQueue

variable {ι τ : Type*}

/-- The items in the queue, and those that have left it, in order, each with the time it left. -/
structure State (ι τ : Type*) where
  pending : Multiset ι
  left : List (τ × ι)

/-- The queue before anything was put in. -/
def State.empty : State ι τ := ⟨0, []⟩

/-- Every item ever put in. -/
def State.items (s : State ι τ) : Multiset ι := (s.left.map Prod.snd : List ι) + s.pending

section Order

variable [LinearOrder τ] (due : ι → τ)

/-- What can happen at a given time. -/
inductive Step (now : τ) (s : State ι τ) : State ι τ → Prop
  /-- An item that is not due before now is put in. -/
  | add (e : ι) (hdue : now ≤ due e) : Step now s { s with pending := e ::ₘ s.pending }
  /-- An item that is due, and none before it, leaves. -/
  | take (e : ι) (rest : Multiset ι) (hpending : s.pending = e ::ₘ rest)
      (hfirst : ∀ e' ∈ rest, due e ≤ due e') (hdue : due e ≤ now) :
      Step now s ⟨rest, s.left ++ [(now, e)]⟩
  /-- No item is due. -/
  | idle (hdue : ∀ e ∈ s.pending, now < due e) : Step now s s

/-- The states that are reached by a given time. -/
inductive Reachable : τ → State ι τ → Prop
  | start (now : τ) : Reachable now State.empty
  | later {now now' : τ} {s : State ι τ} (h : Reachable now s) (hle : now ≤ now') :
      Reachable now' s
  | step {now : τ} {s s' : State ι τ} (h : Reachable now s) (hstep : Step due now s s') :
      Reachable now s'

/-- The invariant. -/
structure Ordered (now : τ) (s : State ι τ) : Prop where
  /-- The due times of the items that have left do not decrease. -/
  sorted : (s.left.map fun r ↦ due r.2).Pairwise (· ≤ ·)
  /-- None has left early. -/
  due_le : ∀ r ∈ s.left, due r.2 ≤ r.1
  /-- All of them have left by now. -/
  past : ∀ r ∈ s.left, r.1 ≤ now
  /-- What has left was due before what is still there. -/
  behind : ∀ r ∈ s.left, ∀ e ∈ s.pending, due r.2 ≤ due e

variable {due} {now now' : τ} {s s' : State ι τ}

theorem ordered_empty (now : τ) : Ordered due now (State.empty : State ι τ) :=
  ⟨.nil, List.forall_mem_nil _, List.forall_mem_nil _, List.forall_mem_nil _⟩

theorem Ordered.mono (h : Ordered due now s) (hle : now ≤ now') : Ordered due now' s :=
  { h with past := fun r hr ↦ (h.past r hr).trans hle }

/-- **Every step keeps the invariant.** -/
theorem Ordered.step (h : Ordered due now s) (hstep : Step due now s s') : Ordered due now s' := by
  induction hstep with
  | idle => exact h
  | add e hdue =>
    refine { h with behind := ?_ }
    intro r hr e' he'
    rcases Multiset.mem_cons.mp he' with rfl | he'
    · -- time has gone on since the item left
      exact ((h.due_le r hr).trans (h.past r hr)).trans hdue
    · exact h.behind r hr e' he'
  | take e rest hpending hfirst hdue =>
    have he : e ∈ s.pending := by rw [hpending]; exact Multiset.mem_cons_self e rest
    constructor
    · rw [List.map_append, List.map_singleton, List.pairwise_append]
      refine ⟨h.sorted, List.pairwise_singleton _ _, ?_⟩
      intro t ht t' ht'
      obtain ⟨r, hr, rfl⟩ := List.mem_map.mp ht
      rw [List.mem_singleton.mp ht']
      exact h.behind r hr e he
    · rw [List.forall_mem_append]
      exact ⟨h.due_le, List.forall_mem_singleton.mpr hdue⟩
    · rw [List.forall_mem_append]
      exact ⟨h.past, List.forall_mem_singleton.mpr le_rfl⟩
    · rw [List.forall_mem_append]
      refine ⟨fun r hr e' he' ↦ h.behind r hr e' ?_, List.forall_mem_singleton.mpr hfirst⟩
      rw [hpending]
      exact Multiset.mem_cons_of_mem he'

/-- **Every state that is reached is in order.** -/
theorem Reachable.ordered (h : Reachable due now s) : Ordered due now s := by
  induction h with
  | start now => exact ordered_empty now
  | later _ hle ih => exact ih.mono hle
  | step _ hstep ih => exact ih.step hstep

end Order

section Items

variable {s : State ι τ} {e : ι}

theorem items_add : State.items { s with pending := e ::ₘ s.pending } = e ::ₘ s.items := by
  rw [State.items, State.items, Multiset.add_cons]

/-- An item that leaves is kept in the record. -/
theorem items_take {rest : Multiset ι} (h : s.pending = e ::ₘ rest) (now : τ) :
    State.items (⟨rest, s.left ++ [(now, e)]⟩ : State ι τ) = s.items := by
  rw [State.items, State.items, h, List.map_append, List.map_singleton, ← Multiset.coe_add,
    add_assoc]
  rfl

end Items

end DelayQueue
