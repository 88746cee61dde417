import Mathlib.Logic.Function.Basic
import Mathlib.Tactic

/-!
# Replaying a log of writes

A log of writes to a map, applied in order. Two observers of the map matter to a pipeline: one that
lags, having seen only the first `r` writes, and one that forwards, overriding what it reads by the
last few writes of the log. `replay_drop_take` says that the forwarder repairs the lag whenever the
writes it forwards begin no later than where the lagging observer stopped. Writes that are seen
twice do no harm, since the later ones of the log win in either case.
-/

namespace Writes

variable {K V : Type*} [DecidableEq K]

/-- The map after the writes of the log, in order. -/
def replay (f : K → V) (ws : List (K × V)) : K → V :=
  ws.foldl (fun g w ↦ Function.update g w.1 w.2) f

@[simp] theorem replay_nil (f : K → V) : replay f [] = f := rfl

@[simp] theorem replay_cons (f : K → V) (w : K × V) (ws : List (K × V)) :
    replay f (w :: ws) = replay (Function.update f w.1 w.2) ws := rfl

theorem replay_append (f : K → V) (ws ws' : List (K × V)) :
    replay f (ws ++ ws') = replay (replay f ws) ws' := List.foldl_append

theorem replay_concat (f : K → V) (ws : List (K × V)) (w : K × V) :
    replay f (ws ++ [w]) = Function.update (replay f ws) w.1 w.2 := by
  rw [replay_append, replay_cons, replay_nil]

/-- A key that no write names keeps its value. -/
theorem replay_of_notMem {k : K} {ws : List (K × V)} (h : k ∉ ws.map Prod.fst) (f : K → V) :
    replay f ws k = f k := by
  induction ws generalizing f with
  | nil => rfl
  | cons w ws ih =>
    rw [List.map_cons, List.mem_cons, not_or] at h
    rw [replay_cons, ih h.2, Function.update_of_ne h.1]

/-- A key that some write names forgets its old value. -/
theorem replay_of_mem {k : K} {ws : List (K × V)} (h : k ∈ ws.map Prod.fst) (f g : K → V) :
    replay f ws k = replay g ws k := by
  induction ws generalizing f g with
  | nil => exact absurd h (List.not_mem_nil)
  | cons w ws ih =>
    rw [replay_cons, replay_cons]
    by_cases hk : k ∈ ws.map Prod.fst
    · exact ih hk _ _
    · have hw : k = w.1 := by
        rw [List.map_cons, List.mem_cons] at h
        exact h.resolve_right hk
      rw [replay_of_notMem hk, replay_of_notMem hk, hw, Function.update_self,
        Function.update_self]

/-- Replaying the first writes of a log before the whole log changes nothing. -/
theorem replay_replay_append (f : K → V) (ws ws' : List (K × V)) :
    replay (replay f ws) (ws ++ ws') = replay f (ws ++ ws') := by
  funext k
  by_cases hk : k ∈ (ws ++ ws').map Prod.fst
  · exact replay_of_mem hk _ _
  · have hws : k ∉ ws.map Prod.fst := by
      rw [List.map_append, List.mem_append, not_or] at hk
      exact hk.1
    rw [replay_of_notMem hk, replay_of_notMem hk, replay_of_notMem hws]

/-- **Forwarding repairs a lag.** -/
theorem replay_drop_take (f : K → V) (ws : List (K × V)) {n r : ℕ} (hnr : n ≤ r) :
    replay (replay f (ws.take r)) (ws.drop n) = replay f ws := by
  have htake : ws.take r = ws.take n ++ (ws.drop n).take (r - n) := by
    rw [← List.take_add, Nat.add_sub_cancel' hnr]
  have hdrop : ws.drop n = (ws.drop n).take (r - n) ++ (ws.drop n).drop (r - n) :=
    (List.take_append_drop _ _).symm
  calc replay (replay f (ws.take r)) (ws.drop n)
      = replay (replay (replay f (ws.take n)) ((ws.drop n).take (r - n)))
          ((ws.drop n).take (r - n) ++ (ws.drop n).drop (r - n)) := by
        rw [← hdrop, htake, replay_append]
    _ = replay (replay f (ws.take n)) (ws.drop n) := by rw [replay_replay_append, ← hdrop]
    _ = replay f ws := by rw [← replay_append, List.take_append_drop]

end Writes
