import Mathlib.Data.Finmap
import Mathlib.Tactic

/-!
# Merging of requests

Requests for the same address are merged: while one is on its way to be answered, later ones wait in
a list kept for the address. A response takes the waiting requests off the list and puts them on
their way. Requests are then in one of two containers, and move between them; none is lost and none
is answered twice, since the requests in both containers together gain what is asked and lose what
is answered.
-/

namespace Merging

variable {τ α : Type*}

/-- The requests on their way, and those that wait behind another with the same address. -/
structure State (τ α : Type*) where
  pending : Multiset (τ × α)
  merged : Finmap fun _ : α ↦ List τ

/-- The requests of the lists, each with its address. -/
def waiting (m : Finmap fun _ : α ↦ List τ) : Multiset (τ × α) :=
  m.entries.bind fun e ↦ ((e.2.map fun t ↦ (t, e.1) : List (τ × α)) : Multiset (τ × α))

namespace State

/-- All requests that are not answered yet. -/
def outstanding (s : State τ α) : Multiset (τ × α) := s.pending + waiting s.merged

/-- A request is on its way for every address with a list. -/
def Covered (s : State τ α) : Prop := ∀ a ∈ s.merged, ∃ t, (t, a) ∈ s.pending

/-- Nothing asked yet. -/
def empty : State τ α := ⟨0, ∅⟩

variable [DecidableEq α]

/-- Ask: behind the requests for the address if there are some, else first of a new list. -/
def request (t : τ) (a : α) (s : State τ α) : State τ α :=
  match s.merged.lookup a with
  | some ts => { s with merged := s.merged.insert a (ts ++ [t]) }
  | none => ⟨(t, a) ::ₘ s.pending, s.merged.insert a []⟩

/-- Answer a request that is on its way, and put those that wait for its address on theirs. -/
def respond [DecidableEq τ] (r : τ × α) (s : State τ α) : State τ α :=
  match s.merged.lookup r.2 with
  | some ts =>
    ⟨s.pending.erase r + ((ts.map fun t ↦ (t, r.2) : List (τ × α)) : Multiset (τ × α)),
      s.merged.erase r.2⟩
  | none => { s with pending := s.pending.erase r }

end State

section Waiting

variable [DecidableEq α] {m : Finmap fun _ : α ↦ List τ} {a : α} {ts : List τ}

omit [DecidableEq α] in
/-- A request waits in the list of its address. -/
theorem mem_of_mem_waiting {r : τ × α} (h : r ∈ waiting m) : r.2 ∈ m := by
  obtain ⟨e, he, hr⟩ := Multiset.mem_bind.mp h
  obtain ⟨t, -, rfl⟩ := List.mem_map.mp (Multiset.mem_coe.mp hr)
  exact Finmap.mem_def.mpr (Multiset.mem_map_of_mem Sigma.fst he)

/-- A new list. -/
theorem waiting_insert (h : a ∉ m) :
    waiting (m.insert a ts) =
      ((ts.map fun t ↦ (t, a) : List (τ × α)) : Multiset _) + waiting m := by
  rw [waiting, Finmap.entries_insert_of_notMem h, Multiset.cons_bind]
  rfl

/-- A list that is there is there once. -/
theorem waiting_eq_add_erase (h : m.lookup a = some ts) :
    waiting m = ((ts.map fun t ↦ (t, a) : List (τ × α)) : Multiset _) + waiting (m.erase a) := by
  have hinsert : (m.erase a).insert a ts = m := by
    apply Finmap.ext_lookup
    intro b
    by_cases hb : b = a
    · subst hb
      rw [Finmap.lookup_insert, h]
    · rw [Finmap.lookup_insert_of_ne _ hb, Finmap.lookup_erase_ne hb]
  have hwaiting : waiting ((m.erase a).insert a ts) = _ := waiting_insert Finmap.notMem_erase_self
  rwa [hinsert] at hwaiting

/-- One more request in a list. -/
theorem waiting_insert_concat (h : m.lookup a = some ts) (t : τ) :
    waiting (m.insert a (ts ++ [t])) = (t, a) ::ₘ waiting m := by
  have herase : (m.insert a (ts ++ [t])).erase a = m.erase a := by
    apply Finmap.ext_lookup
    intro b
    by_cases hb : b = a
    · subst hb
      rw [Finmap.lookup_erase, Finmap.lookup_erase]
    · rw [Finmap.lookup_erase_ne hb, Finmap.lookup_insert_of_ne _ hb, Finmap.lookup_erase_ne hb]
  rw [waiting_eq_add_erase (Finmap.lookup_insert m), waiting_eq_add_erase h, herase,
    List.map_append,
    ← Multiset.coe_add, add_right_comm, add_comm, List.map_singleton, Multiset.coe_singleton,
    Multiset.singleton_add]

end Waiting

namespace State

variable {s : State τ α}

@[simp] theorem outstanding_empty : (empty : State τ α).outstanding = 0 := rfl

theorem covered_empty : (empty : State τ α).Covered :=
  fun _ ha ↦ absurd ha Finmap.notMem_empty

variable [DecidableEq α]

/-- **Asking adds one request.** -/
theorem outstanding_request (t : τ) (a : α) (s : State τ α) :
    (s.request t a).outstanding = (t, a) ::ₘ s.outstanding := by
  rw [request]
  split
  · next ts hlookup =>
    rw [outstanding, outstanding, waiting_insert_concat hlookup, Multiset.add_cons]
  · next hlookup =>
    rw [outstanding, outstanding, waiting_insert (Finmap.lookup_eq_none.mp hlookup), List.map_nil,
      Multiset.coe_nil, zero_add, Multiset.cons_add]

theorem Covered.request (h : s.Covered) (t : τ) (a : α) : (s.request t a).Covered := by
  intro b hb
  rw [State.request] at hb ⊢
  split at hb
  · next ts hlookup =>
    rcases Finmap.mem_insert.mp hb with rfl | hb
    · exact h b (Finmap.mem_of_lookup_eq_some hlookup)
    · exact h b hb
  · rcases Finmap.mem_insert.mp hb with rfl | hb
    · exact ⟨t, Multiset.mem_cons_self _ _⟩
    · obtain ⟨t', ht'⟩ := h b hb
      exact ⟨t', Multiset.mem_cons_of_mem ht'⟩

variable [DecidableEq τ]

/-- **Answering removes one request.** -/
theorem outstanding_respond {r : τ × α} (h : r ∈ s.pending) :
    s.outstanding = r ::ₘ (s.respond r).outstanding := by
  have hpending : s.pending = r ::ₘ s.pending.erase r := (Multiset.cons_erase h).symm
  rw [respond]
  split
  · next ts hlookup =>
    rw [outstanding, outstanding, waiting_eq_add_erase hlookup, ← add_assoc, add_assoc s.pending,
      ← add_assoc]
    conv_lhs => rw [hpending]
    rw [Multiset.cons_add, Multiset.cons_add]
  · rw [outstanding, outstanding]
    conv_lhs => rw [hpending]
    exact Multiset.cons_add _ _ _

/-- A response covers its own address no more, but it takes the list of that address with it. -/
theorem Covered.respond (h : s.Covered) (r : τ × α) : (s.respond r).Covered := by
  have hother : ∀ b ∈ s.merged, b ≠ r.2 → ∃ t, (t, b) ∈ s.pending.erase r := by
    intro b hb hne
    obtain ⟨t, ht⟩ := h b hb
    refine ⟨t, (Multiset.mem_erase_of_ne fun heq ↦ hne ?_).mpr ht⟩
    rw [← heq]
  intro b hb
  rw [State.respond] at hb ⊢
  split at hb
  · obtain ⟨hne, hb⟩ := Finmap.mem_erase.mp hb
    obtain ⟨t, ht⟩ := hother b hb hne
    exact ⟨t, Multiset.mem_add.mpr (.inl ht)⟩
  · next hlookup =>
    refine hother b hb fun heq ↦ ?_
    subst heq
    exact Finmap.lookup_eq_none.mp hlookup hb

end State

end Merging
