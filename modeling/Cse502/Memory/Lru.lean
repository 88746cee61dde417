import Cse502.Library.Recency
import Cse502.Model.Memory
import Mathlib.Tactic

/-!
# `lruset` is an LRU cache

`Memory::work` looks a key up with `get` and on a miss inserts it with `put`. A set used in this way
holds the keys accessed last, in the order of their last access, and gives the oldest of them as the
victim once it is full. A look that does not promote changes nothing.
-/

namespace Cse502

open Recency (Cache recent)

namespace LruSet

variable {κ ν : Type*} [DecidableEq κ]

/-! ## Runs -/

/-- What `Memory::work` does with a set: an access, which inserts its key with a value on a miss, or
a look that does not promote. -/
inductive Use (κ ν : Type*)
  | access (k : κ) (v : ν)
  | look (k : κ)

/-- `get`, and on a miss `put`. -/
def access (noVictim : κ × ν) (k : κ) (v : ν) (c : LruSet κ ν) : LruSet κ ν :=
  match (c.get k true).1 with
  | some _ => (c.get k true).2
  | none => ((c.get k true).2.put noVictim k v).2

/-- One use of the set. -/
def use (noVictim : κ × ν) (c : LruSet κ ν) : Use κ ν → LruSet κ ν
  | .access k v => c.access noVictim k v
  | .look k => (c.get k false).2

/-- An empty set of capacity `n` after a number of uses. -/
def after (noVictim : κ × ν) (n : ℕ) (uses : List (Use κ ν)) : LruSet κ ν :=
  uses.foldl (use noVictim) ⟨n, []⟩

/-- One use of the cache that remembers all accesses. -/
def modelUse (n : ℕ) (r : Cache κ ν) : Use κ ν → Cache κ ν
  | .access k v => r.access n k v
  | .look _ => r

/-- The cache that remembers all accesses after the same uses. -/
def model (n : ℕ) (uses : List (Use κ ν)) : Cache κ ν := uses.foldl (modelUse n) Cache.empty

/-- The keys that were accessed, in order. -/
def accesses (uses : List (Use κ ν)) : List κ :=
  uses.filterMap fun
    | .access k _ => some k
    | .look _ => none

/-! ## One use -/

/-- The set holds what the cache of the keys accessed last does, the oldest one first. -/
structure Keeps (n : ℕ) (c : LruSet κ ν) (r : Cache κ ν) : Prop where
  capacity : c.capacity = n
  keys : c.s.map Prod.fst = (r.resident n).reverse
  values : ∀ e ∈ c.s, r.filled e.1 = some e.2

variable {n : ℕ} {c : LruSet κ ν} {r : Cache κ ν} {k : κ}

/-- A key that is not there. -/
theorem get_of_notMem (hk : k ∉ c.s.map Prod.fst) (promote : Bool) :
    c.get k promote = (none, c) := by
  have hfind : (c.s.find? fun e ↦ e.1 = k) = none := by
    rw [List.find?_eq_none]
    intro e he heq
    exact hk (List.mem_map.mpr ⟨e, he, of_decide_eq_true heq⟩)
  rw [get, hfind]

/-- A key that is there. -/
theorem get_of_mem (hk : k ∈ c.s.map Prod.fst) (promote : Bool) :
    ∃ v, (k, v) ∈ c.s ∧ c.get k promote =
      (some v,
        if promote then { c with s := c.s.filter (fun e ↦ e.1 ≠ k) ++ [(k, v)] } else c) := by
  cases hfind : c.s.find? fun e ↦ e.1 = k with
  | none =>
    obtain ⟨e, he, rfl⟩ := List.mem_map.mp hk
    exact absurd (decide_eq_true rfl) (List.find?_eq_none.mp hfind e he)
  | some e =>
    have hek : e.1 = k := by simpa using List.find?_some hfind
    subst hek
    refine ⟨e.2, List.mem_of_find?_eq_some hfind, ?_⟩
    rw [get, hfind]

/-- The keys after a promotion. -/
theorem map_promote (v : ν) :
    (c.s.filter (fun e ↦ e.1 ≠ k) ++ [(k, v)]).map Prod.fst =
      (c.s.map Prod.fst).filter (· ≠ k) ++ [k] := by
  rw [List.map_append, List.filter_map]
  rfl

theorem Keeps.mem_iff (h : Keeps n c r) : k ∈ c.s.map Prod.fst ↔ k ∈ r.resident n := by
  rw [h.keys, List.mem_reverse]

theorem Keeps.length (h : Keeps n c r) : c.s.length = (r.resident n).length := by
  rw [← List.length_map (f := Prod.fst), h.keys, List.length_reverse]

omit [DecidableEq κ] in
theorem mem_put {noVictim e : κ × ν} {v : ν} (he : e ∈ (c.put noVictim k v).2.s) :
    e ∈ c.s ∨ e = (k, v) := by
  rw [put] at he
  split_ifs at he
  · rcases List.mem_append.mp he with he | he
    · exact .inl (List.mem_of_mem_tail he)
    · exact .inr (List.mem_singleton.mp he)
  · rcases List.mem_append.mp he with he | he
    · exact .inl he
    · exact .inr (List.mem_singleton.mp he)

/-- A set that is full loses its first key. -/
theorem Keeps.keys_put (h : Keeps n c r) (noVictim : κ × ν) (k : κ) (v : ν) :
    (c.put noVictim k v).2.s.map Prod.fst = ((recent r.history).take (n - 1)).reverse ++ [k] := by
  have hlength : c.s.length = min n (recent r.history).length := by
    rw [h.length, Cache.resident, List.length_take]
  rw [put, h.capacity]
  split_ifs with hfull
  · have htake : ((recent r.history).take n).dropLast = (recent r.history).take (n - 1) := by
      rw [List.dropLast_eq_take, List.take_take, List.length_take, ← hlength, hfull]
      congr 1
      omega
    rw [List.map_append, List.map_tail, h.keys, Cache.resident, List.tail_reverse, htake]
    rfl
  · rw [List.map_append, h.keys, Cache.resident, List.take_of_length_le (by omega),
      List.take_of_length_le (by omega)]
    rfl

/-- **An access keeps the keys accessed last.** -/
theorem Keeps.access (h : Keeps n c r) (hn : 0 < n) (noVictim : κ × ν) (k : κ) (v : ν) :
    Keeps n (c.access noVictim k v) (r.access n k v) := by
  by_cases hmem : k ∈ c.s.map Prod.fst
  · have hres : k ∈ r.resident n := h.mem_iff.mp hmem
    obtain ⟨w, hw, hget⟩ := get_of_mem hmem true
    rw [LruSet.access, hget]
    constructor
    case capacity => exact h.capacity
    case keys =>
      rw [Cache.resident, Cache.access, Recency.take_recent_of_mem hres, List.reverse_cons,
        List.filter_reverse.symm]
      exact (map_promote w).trans (congrArg (fun l ↦ l.filter (· ≠ k) ++ [k]) h.keys)
    case values =>
      intro e he
      rw [Cache.access, if_pos hres]
      rcases List.mem_append.mp he with he | he
      · exact h.values e (List.mem_of_mem_filter he)
      · rw [List.mem_singleton.mp he]
        exact h.values _ hw
  · have hres : k ∉ r.resident n := fun hres ↦ hmem (h.mem_iff.mpr hres)
    rw [LruSet.access, get_of_notMem hmem]
    constructor
    case capacity =>
      dsimp only
      rw [put]
      split_ifs
      · exact h.capacity
      · exact h.capacity
    case keys =>
      rw [Cache.resident, Cache.access, Recency.take_recent_of_notMem hn hres, List.reverse_cons]
      exact h.keys_put noVictim k v
    case values =>
      intro e he
      rw [Cache.access, if_neg hres]
      rcases mem_put he with he | rfl
      · have hne : e.1 ≠ k := fun hek ↦ hmem (List.mem_map.mpr ⟨e, he, hek⟩)
        exact (Function.update_of_ne hne _ _).trans (h.values e he)
      · exact Function.update_self _ _ _

/-- A look that does not promote leaves the set as it was. -/
theorem get_false (k : κ) (c : LruSet κ ν) : (c.get k false).2 = c := by
  rw [get]
  split <;> rfl

theorem after_concat (noVictim : κ × ν) (n : ℕ) (uses : List (Use κ ν)) (u : Use κ ν) :
    after noVictim n (uses ++ [u]) = use noVictim (after noVictim n uses) u := by
  rw [after, List.foldl_append]
  rfl

theorem model_concat (n : ℕ) (uses : List (Use κ ν)) (u : Use κ ν) :
    model n (uses ++ [u]) = modelUse n (model n uses) u := by
  rw [model, List.foldl_append]
  rfl

theorem history_model (n : ℕ) (uses : List (Use κ ν)) :
    (model n uses).history = accesses uses := by
  induction uses using List.reverseRecOn with
  | nil => rfl
  | append_singleton uses u ih =>
    rw [model_concat, accesses, List.filterMap_append, ← accesses, ← ih]
    cases u with
    | access k v => rfl
    | look k => exact (List.append_nil _).symm

/-- **Every use keeps the keys accessed last.** -/
theorem keeps_after (hn : 0 < n) (noVictim : κ × ν) (uses : List (Use κ ν)) :
    Keeps n (after noVictim n uses) (model n uses) := by
  induction uses using List.reverseRecOn with
  | nil =>
    refine ⟨rfl, ?_, fun e he ↦ absurd he List.not_mem_nil⟩
    exact (List.reverse_eq_nil_iff.mpr List.take_nil).symm
  | append_singleton uses u ih =>
    rw [after_concat, model_concat]
    cases u with
    | access k v => exact ih.access hn noVictim k v
    | look k =>
      rw [use, get_false]
      exact ih

/-! ## The entries of a set -/

/-- A promotion adds no entry. -/
theorem mem_promote {e : κ × ν} (he : e ∈ (c.get k true).2.s) : e ∈ c.s := by
  by_cases hk : k ∈ c.s.map Prod.fst
  · obtain ⟨v, hv, hget⟩ := get_of_mem hk true
    rw [hget] at he
    rcases List.mem_append.mp he with he | he
    · exact List.mem_of_mem_filter he
    · exact List.mem_singleton.mp he ▸ hv
  · rw [get_of_notMem hk] at he
    exact he

/-- An assignment replaces the entry of its key. -/
theorem mem_assign {e : κ × ν} {v : ν} (he : e ∈ (c.assign k v).s) :
    e = (k, v) ∨ (e ∈ c.s ∧ e.1 ≠ k) := by
  obtain ⟨e', he', rfl⟩ := List.mem_map.mp he
  by_cases hk : e'.1 = k
  · exact .inl (if_pos hk)
  · rw [if_neg hk]
    exact .inr ⟨he', hk⟩

/-- The key that is assigned has the new value, if it is there. -/
theorem mem_assign_self (hk : k ∈ c.s.map Prod.fst) (v : ν) : (k, v) ∈ (c.assign k v).s := by
  obtain ⟨e, he, hek⟩ := List.mem_map.mp hk
  exact List.mem_map.mpr ⟨e, he, if_pos hek⟩

omit [DecidableEq κ] in
theorem mem_put_self (noVictim : κ × ν) (v : ν) : (k, v) ∈ (c.put noVictim k v).2.s := by
  rw [put]
  split_ifs <;> exact List.mem_append_right _ List.mem_cons_self

/-- An access adds an entry on a miss only. -/
theorem mem_access {noVictim e : κ × ν} {v : ν} (he : e ∈ (c.access noVictim k v).s) :
    e ∈ c.s ∨ (k ∉ c.s.map Prod.fst ∧ e = (k, v)) := by
  by_cases hk : k ∈ c.s.map Prod.fst
  · obtain ⟨w, -, hget⟩ := get_of_mem hk true
    rw [access, hget] at he
    exact .inl (mem_promote (k := k) (hget ▸ he))
  · rw [access, get_of_notMem hk] at he
    exact (mem_put he).imp_right fun heq ↦ ⟨hk, heq⟩

/-! ## What a set answers -/

/-- A key is found exactly if it is one of those accessed last. -/
theorem Keeps.found_iff (h : Keeps n c r) (k : κ) (promote : Bool) :
    (∃ v, (c.get k promote).1 = some v) ↔ Recency.Within n r.history k := by
  rw [← Cache.mem_resident_iff, ← h.mem_iff]
  constructor
  · rintro ⟨v, hv⟩
    by_contra hmem
    rw [get_of_notMem hmem] at hv
    exact absurd hv (by simp)
  · intro hmem
    obtain ⟨v, -, hget⟩ := get_of_mem hmem promote
    exact ⟨v, congrArg Prod.fst hget⟩

theorem Keeps.filled_of_get (h : Keeps n c r) {promote : Bool} {v : ν}
    (hget : (c.get k promote).1 = some v) : r.filled k = some v := by
  by_cases hmem : k ∈ c.s.map Prod.fst
  · obtain ⟨w, hw, hget'⟩ := get_of_mem hmem promote
    obtain rfl : w = v := Option.some.inj ((congrArg Prod.fst hget').symm.trans hget)
    exact h.values _ hw
  · rw [get_of_notMem hmem] at hget
    exact absurd hget (by simp)

/-- The first key of a full set is the oldest. -/
theorem Keeps.oldest (h : Keeps n c r) {e : κ × ν} {rest : List (κ × ν)} (hs : c.s = e :: rest) :
    Recency.Oldest r.history (c.s.map Prod.fst) e.1 ∧ (c.get e.1 false).1 = some e.2 := by
  constructor
  · have hkeys : (recent r.history).take n = (rest.map Prod.fst).reverse ++ [e.1] := by
      rw [← List.reverse_cons, ← List.map_cons, ← hs, h.keys, List.reverse_reverse, Cache.resident]
    refine (Recency.oldest_of_take hkeys).of_mem_iff fun k' ↦ ?_
    rw [← hkeys, h.keys, List.mem_reverse, Cache.resident]
  · have hfind : ((e :: rest).find? fun e' ↦ e'.1 = e.1) = some e :=
      List.find?_cons_of_pos (by simp)
    rw [get, hs, hfind]

/-- The set after some uses is the LRU cache of size `n` of the keys that were accessed. -/
structure IsLru (noVictim : κ × ν) (n : ℕ) (uses : List (Use κ ν)) : Prop where
  resident : (after noVictim n uses).s.map Prod.fst =
    ((recent (accesses uses)).take n).reverse
  size : (after noVictim n uses).s.length = min n (accesses uses).toFinset.card
  /-- A key is found exactly if fewer than `n` others were accessed since its last access. -/
  hit : ∀ k promote, (∃ v, ((after noVictim n uses).get k promote).1 = some v) ↔
    Recency.Within n (accesses uses) k
  /-- It is found with the value it was inserted with last. -/
  value : ∀ k promote v, ((after noVictim n uses).get k promote).1 = some v →
    (model n uses).filled k = some v
  /-- A full set gives the oldest of its keys, with its value, as the victim of a miss. -/
  victim : ∀ k v, ((after noVictim n uses).get k true).1 = none →
    (after noVictim n uses).s.length = n → ∃ k' v',
      (((after noVictim n uses).get k true).2.put noVictim k v).1 = (k', v') ∧
      Recency.Oldest (accesses uses) ((after noVictim n uses).s.map Prod.fst) k' ∧
      ((after noVictim n uses).get k' false).1 = some v'
  /-- A set with room has no victim. -/
  room : ∀ k v, ((after noVictim n uses).get k true).1 = none →
    (after noVictim n uses).s.length ≠ n →
    (((after noVictim n uses).get k true).2.put noVictim k v).1 = noVictim

/-- **`lruset` is an LRU cache**, for every capacity and every sequence of uses. -/
theorem isLru (hn : 1 ≤ n) (noVictim : κ × ν) (uses : List (Use κ ν)) :
    IsLru noVictim n uses := by
  have h := keeps_after hn noVictim uses
  have hmiss : ∀ k, ((after noVictim n uses).get k true).1 = none →
      ((after noVictim n uses).get k true).2 = after noVictim n uses := by
    intro k hk
    by_cases hmem : k ∈ (after noVictim n uses).s.map Prod.fst
    · obtain ⟨v, -, hget⟩ := get_of_mem hmem true
      exact absurd ((congrArg Prod.fst hget).symm.trans hk) (by simp)
    · rw [get_of_notMem hmem]
  constructor
  case resident => rw [h.keys, Cache.resident, history_model]
  case size => rw [h.length, Cache.length_resident, history_model]
  case hit =>
    intro k promote
    rw [h.found_iff, history_model]
  case value => exact fun k promote v hget ↦ h.filled_of_get hget
  case victim =>
    intro k v hget hfull
    rw [hmiss k hget, put, h.capacity, if_pos hfull]
    cases hs : (after noVictim n uses).s with
    | nil => exact absurd (hfull.symm.trans (congrArg List.length hs)) (by simp; omega)
    | cons e rest =>
      obtain ⟨hold, hvalue⟩ := h.oldest hs
      rw [history_model, hs] at hold
      exact ⟨e.1, e.2, rfl, hold, hvalue⟩
  case room =>
    intro k v hget hroom
    rw [hmiss k hget, put, h.capacity, if_neg hroom]

/-- A set of two keys: the access to 1 is a hit, so 2 is the victim of the access to 3. -/
theorem isLru_two : IsLru (0, 0) 2
    [.access 1 10, .access 2 20, .access 1 30, .look 2, .access 3 40] :=
  isLru (by decide) _ _

example : (after (0, 0) 2 [.access 1 10, .access 2 20, .access 1 30, .look 2, .access 3 40]).s =
    [(1, 10), (3, 40)] := by decide

end LruSet

namespace Memory

/-! ## The caches of `Memory` -/

/-- The second cache is accessed. -/
theorem lookL2_caches (addr : Word) (latency : ℕ) (m : Memory) :
    (m.lookL2 addr latency).2.l1i = m.l1i ∧ (m.lookL2 addr latency).2.l1d = m.l1d ∧
      (m.lookL2 addr latency).2.l2 = m.l2.access noVictim addr .clean := by
  rw [lookL2, LruSet.access]
  split
  · next h => exact ⟨rfl, rfl, by rw [h]⟩
  · next h => exact ⟨rfl, rfl, by rw [h]⟩

/-- The cache of the instructions is accessed, and on a miss the second one. -/
theorem iLatency_caches (addr : Word) (m : Memory) :
    (m.iLatency addr).2.l1i = m.l1i.access noVictim addr .clean ∧
      (m.iLatency addr).2.l1d = m.l1d ∧
      ((m.iLatency addr).2.l2 = m.l2 ∨
        (m.iLatency addr).2.l2 = m.l2.access noVictim addr .clean) := by
  rw [iLatency, LruSet.access]
  split
  · next h => exact ⟨by rw [h], rfl, .inl rfl⟩
  · next h =>
    obtain ⟨hl1i, hl1d, hl2⟩ := lookL2_caches addr (2 + 9)
      { m with l1i := ((m.l1i.get addr true).2.put noVictim addr .clean).2 }
    exact ⟨hl1i.trans (by rw [h]), hl1d, .inr hl2⟩

end Memory

end Cse502
