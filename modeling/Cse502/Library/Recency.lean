import Mathlib.Data.Finset.Card
import Mathlib.Data.List.Dedup
import Mathlib.Logic.Function.Basic
import Mathlib.Tactic.Common

/-!
# Recency

A history is a list of keys, in the order in which they were accessed. It orders its keys by their
last access. The keys accessed last are those with few other keys after their last access, which is
what a cache that evicts the key used least recently keeps.
-/

namespace Recency

variable {κ : Type*} [DecidableEq κ] {h : List κ} {k : κ} {n : ℕ}

/-! ## The order of the keys -/

/-- The keys of a history, the one accessed last first. -/
def recent (h : List κ) : List κ := h.dedup.reverse

/-- What was accessed since the last access to a key. -/
def Since (h : List κ) (k : κ) (later : List κ) : Prop :=
  (∃ earlier, h = earlier ++ k :: later) ∧ k ∉ later

/-- Fewer than `n` keys were accessed since the last access to this one. -/
def Within (n : ℕ) (h : List κ) (k : κ) : Prop :=
  ∃ later, Since h k later ∧ later.toFinset.card < n

/-- Of a list of keys, the one whose last access is the oldest. -/
def Oldest (h keys : List κ) (k : κ) : Prop :=
  k ∈ keys ∧ ∃ later, Since h k later ∧ ∀ k' ∈ keys, k' ≠ k → k' ∈ later

theorem nodup_recent (h : List κ) : (recent h).Nodup := List.nodup_reverse.mpr h.nodup_dedup

@[simp] theorem mem_recent : k ∈ recent h ↔ k ∈ h := by
  rw [recent, List.mem_reverse, List.mem_dedup]

@[simp] theorem length_recent (h : List κ) : (recent h).length = h.toFinset.card := by
  rw [recent, List.length_reverse, List.card_toFinset]

/-- A key comes to the front when it is accessed. -/
theorem recent_concat (h : List κ) (k : κ) :
    recent (h ++ [k]) = k :: (recent h).filter (· ≠ k) := by
  have hdedup : (h ++ [k]).dedup = h.dedup.filter (· ≠ k) ++ [k] := by
    induction h with
    | nil => rfl
    | cons a h ih =>
      by_cases ha : a ∈ h
      · rw [List.cons_append, List.dedup_cons_of_mem (List.mem_append_left _ ha), ih,
          List.dedup_cons_of_mem ha]
      · by_cases hak : a = k
        · subst hak
          rw [List.cons_append, List.dedup_cons_of_mem (by simp), ih,
            List.dedup_cons_of_notMem ha, List.filter_cons_of_neg (by simp)]
        · rw [List.cons_append, List.dedup_cons_of_notMem (by simp [ha, hak]), ih,
            List.dedup_cons_of_notMem ha, List.filter_cons_of_pos (by simpa using hak),
            List.cons_append]
  rw [recent, hdedup, List.reverse_append, recent, List.filter_reverse]
  rfl

/-- A key in a history has a last access. -/
theorem exists_since (hk : k ∈ h) : ∃ later, Since h k later := by
  induction h with
  | nil => exact absurd hk List.not_mem_nil
  | cons a h ih =>
    by_cases hmem : k ∈ h
    · obtain ⟨later, ⟨earlier, rfl⟩, hnot⟩ := ih hmem
      exact ⟨later, ⟨a :: earlier, rfl⟩, hnot⟩
    · obtain rfl : k = a := (List.mem_cons.mp hk).resolve_right hmem
      exact ⟨h, ⟨[], rfl⟩, hmem⟩

/-- In front of a key are the keys accessed since its last access. -/
theorem recent_of_since {later : List κ} (hsince : Since h k later) :
    ∃ older, recent h = recent later ++ k :: older := by
  obtain ⟨⟨earlier, rfl⟩, hnot⟩ := hsince
  obtain ⟨older, holder⟩ := List.suffix_union_right earlier (k :: later).dedup
  refine ⟨older.reverse, ?_⟩
  rw [recent, List.dedup_append, ← holder, List.dedup_cons_of_notMem hnot]
  simp [recent]

/-! ## The keys accessed last -/

omit [DecidableEq κ] in
/-- A key is among the first of a list without duplicates if it has few others in front. -/
theorem mem_take_iff {front back : List κ} (hnodup : (front ++ k :: back).Nodup) :
    k ∈ (front ++ k :: back).take n ↔ front.length < n := by
  have hnot : k ∉ front := by
    rw [List.nodup_append] at hnodup
    exact fun hmem ↦ hnodup.2.2 k hmem k List.mem_cons_self rfl
  constructor
  · intro hmem
    by_contra hle
    rw [List.take_append_of_le_length (by omega)] at hmem
    exact hnot (List.mem_of_mem_take hmem)
  · intro hlt
    obtain ⟨j, rfl⟩ := Nat.exists_eq_add_of_lt hlt
    rw [Nat.add_assoc, List.take_length_add_append, List.take_succ_cons]
    simp

/-- **A key is among the `n` accessed last exactly if fewer than `n` keys were accessed since.** -/
theorem mem_take_recent_iff : k ∈ (recent h).take n ↔ Within n h k := by
  constructor
  · intro hmem
    obtain ⟨later, hsince⟩ := exists_since (mem_recent.mp (List.mem_of_mem_take hmem))
    obtain ⟨older, holder⟩ := recent_of_since hsince
    have hnodup := holder ▸ nodup_recent h
    rw [holder, mem_take_iff hnodup, length_recent] at hmem
    exact ⟨later, hsince, hmem⟩
  · rintro ⟨later, hsince, hlt⟩
    obtain ⟨older, holder⟩ := recent_of_since hsince
    have hnodup := holder ▸ nodup_recent h
    rw [holder, mem_take_iff hnodup, length_recent]
    exact hlt

omit [DecidableEq κ] in
/-- Which key is the oldest does not depend on the order of the list. -/
theorem Oldest.of_mem_iff {keys keys' : List κ} (hold : Oldest h keys k)
    (hkeys : ∀ k', k' ∈ keys' ↔ k' ∈ keys) : Oldest h keys' k := by
  obtain ⟨hmem, later, hsince, hlater⟩ := hold
  exact ⟨(hkeys k).mpr hmem, later, hsince, fun k' hk' ↦ hlater k' ((hkeys k').mp hk')⟩

/-- The last of the keys accessed last is the oldest of them. -/
theorem oldest_of_take {keys : List κ} (hkeys : (recent h).take n = keys ++ [k]) :
    Oldest h (keys ++ [k]) k := by
  have hlast : k ∈ keys ++ [k] := List.mem_append_right _ List.mem_cons_self
  have hmem : k ∈ recent h := List.mem_of_mem_take (hkeys ▸ hlast)
  obtain ⟨later, hsince⟩ := exists_since (mem_recent.mp hmem)
  obtain ⟨older, holder⟩ := recent_of_since hsince
  have hrest : recent h = keys ++ k :: (recent h).drop n := by
    rw [List.append_cons, ← hkeys, List.take_append_drop]
  have hnodup : (keys ++ k :: (recent h).drop n).Nodup := hrest ▸ nodup_recent h
  obtain ⟨-, hback, hfront⟩ := List.nodup_append.mp hnodup
  have hfirst : keys = recent later := by
    refine ((List.append_cons_inj_of_notMem ?_ (List.nodup_cons.mp hback).1).mp
      (hrest.symm.trans holder)).1
    exact fun hk ↦ hfront k hk k List.mem_cons_self rfl
  refine ⟨hlast, later, hsince, fun k' hk' hne ↦ ?_⟩
  rcases List.mem_append.mp hk' with hk' | hk'
  · exact mem_recent.mp (hfirst ▸ hk')
  · exact absurd (List.mem_singleton.mp hk') hne

/-! ## One more access -/

/-- The one place of a key in a list without duplicates. -/
theorem filter_ne_append_cons {front back : List κ} (hnodup : (front ++ k :: back).Nodup) :
    (front ++ k :: back).filter (· ≠ k) = front ++ back := by
  obtain ⟨-, hback, hfront⟩ := List.nodup_append.mp hnodup
  rw [List.filter_append, List.filter_cons_of_neg (by simp), List.filter_eq_self.mpr,
    List.filter_eq_self.mpr]
  · intro a ha
    exact decide_eq_true fun hak ↦ (List.nodup_cons.mp hback).1 (hak ▸ ha)
  · intro a ha
    exact decide_eq_true (hfront a ha k List.mem_cons_self)

/-- An access to one of the keys accessed last brings it to the front. -/
theorem take_recent_of_mem (hmem : k ∈ (recent h).take n) :
    (recent (h ++ [k])).take n = k :: ((recent h).take n).filter (· ≠ k) := by
  have hnodup := nodup_recent h
  obtain ⟨front, back, hsplit⟩ := List.append_of_mem (List.mem_of_mem_take hmem)
  rw [hsplit] at hnodup hmem
  obtain ⟨j, rfl⟩ := Nat.exists_eq_add_of_lt ((mem_take_iff hnodup).mp hmem)
  have hfirst : (front ++ k :: back).take (front.length + j + 1) = front ++ k :: back.take j := by
    rw [Nat.add_assoc, List.take_length_add_append, List.take_succ_cons]
  have hnodup' : (front ++ k :: back.take j).Nodup :=
    hfirst ▸ hnodup.sublist (List.take_sublist _ _)
  rw [recent_concat, hsplit, filter_ne_append_cons hnodup, hfirst, filter_ne_append_cons hnodup',
    List.take_succ_cons, List.take_length_add_append]

/-- An access to another key brings it to the front of the others. -/
theorem take_recent_of_notMem (hn : 0 < n) (hmem : k ∉ (recent h).take n) :
    (recent (h ++ [k])).take n = k :: (recent h).take (n - 1) := by
  obtain ⟨m, rfl⟩ := Nat.exists_eq_add_of_lt hn
  rw [Nat.zero_add] at hmem ⊢
  have hfirst : ((recent h).take m).filter (· ≠ k) = (recent h).take m := by
    refine List.filter_eq_self.mpr fun a ha ↦ decide_eq_true fun hak ↦ hmem ?_
    exact hak ▸ List.take_subset_take_left _ m.le_succ ha
  rw [recent_concat, List.take_succ_cons, Nat.add_sub_cancel]
  congr 1
  calc ((recent h).filter (· ≠ k)).take m
      = (((recent h).take m ++ (recent h).drop m).filter (· ≠ k)).take m := by
        rw [List.take_append_drop]
    _ = ((recent h).take m ++ ((recent h).drop m).filter (· ≠ k)).take m := by
        rw [List.filter_append, hfirst]
    _ = (recent h).take m := by
        rw [List.take_append, List.take_take, Nat.min_self]
        rcases Nat.le_total m (recent h).length with hle | hle
        · rw [List.length_take_of_le hle, Nat.sub_self, List.take_zero, List.append_nil]
        · rw [List.drop_eq_nil_of_le hle, List.filter_nil, List.take_nil, List.append_nil]

/-! ## A cache of the keys accessed last -/

/-- What was accessed, and the value each key was filled with last. -/
structure Cache (κ ν : Type*) where
  history : List κ
  filled : κ → Option ν

namespace Cache

variable {ν : Type*}

/-- Nothing accessed yet. -/
def empty : Cache κ ν := ⟨[], fun _ ↦ none⟩

/-- The keys a cache of size `n` holds, the one accessed last first. -/
def resident (n : ℕ) (c : Cache κ ν) : List κ := (recent c.history).take n

/-- An access, which fills the key where it is not held. -/
def access (n : ℕ) (k : κ) (v : ν) (c : Cache κ ν) : Cache κ ν :=
  ⟨c.history ++ [k], if k ∈ c.resident n then c.filled else Function.update c.filled k (some v)⟩

theorem mem_resident_iff {c : Cache κ ν} : k ∈ c.resident n ↔ Within n c.history k :=
  mem_take_recent_iff

theorem length_resident (c : Cache κ ν) :
    (c.resident n).length = min n c.history.toFinset.card := by
  rw [resident, List.length_take, length_recent]

end Cache

end Recency
