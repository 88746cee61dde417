import Mathlib.Data.List.Perm.Basic
import Mathlib.Logic.Function.Basic
import Mathlib.Tactic

/-!
# The order of merged requests

Requests for the same address are merged: the first makes a list for the address and is on its way,
later ones wait in its list. The earliest of the requests on their way is answered first, and takes
those in the list of its address with it: they are due at once, and the list is gone. Here the
requests are numbered, so that a list has an owner, and every merged request has one to wait for.

## Which list is drained

An answer drains the list its address has *at that moment*. When requests of an older list are still
on their way, the list can be that of a later request, and what it held then overtakes its owner.
Nothing is overtaken as long as an answer drains the list of its own request, or that of one that is
due before the requests it drains.
-/

namespace FillOrder

variable {τ κ : Type*}

/-- A response on its way, with the number of its request. -/
structure Fill (τ κ : Type*) where
  due : ℕ
  number : ℕ
  tag : τ
  key : κ
  deriving DecidableEq

/-- The responses on their way, and for each address the owner of its list with the requests in it.
Then what has happened: how many requests there were, which of them were merged in a list and who
owned it, and which were answered, in this order. -/
structure State (τ κ : Type*) where
  bucket : List (Fill τ κ)
  list : κ → Option (ℕ × List (ℕ × τ))
  requests : ℕ
  merged : List (ℕ × ℕ)
  answered : List ℕ

namespace State

/-- No request so far. -/
def init : State τ κ := ⟨[], fun _ ↦ none, 0, [], []⟩

/-- The requests that wait for an address. -/
def waiting (s : State τ κ) (k : κ) : List (ℕ × τ) := (s.list k).elim [] Prod.snd

/-- The numbers of those on their way. -/
def numbers (s : State τ κ) : List ℕ := s.bucket.map Fill.number

/-- A merged request is answered after the one in whose list it was. -/
def Waits (s : State τ κ) : Prop :=
  ∀ pre i owner, pre ++ [i] <+: s.answered → (i, owner) ∈ s.merged → owner ∈ pre

/-- The answer drains its own list, an empty one, or one whose owner is due already. -/
def DrainsInOrder (now : ℕ) (f : Fill τ κ) (s : State τ κ) : Prop :=
  ∀ e ∈ s.list f.key, e.2 ≠ [] → e.1 ≠ f.number → ∀ g ∈ s.bucket, g.number = e.1 → g.due < now

instance [DecidableEq τ] (now : ℕ) (f : Fill τ κ) (s : State τ κ) :
    Decidable (s.DrainsInOrder now f) :=
  inferInstanceAs (Decidable (∀ e ∈ s.list f.key, e.2 ≠ [] → e.1 ≠ f.number →
    ∀ g ∈ s.bucket, g.number = e.1 → g.due < now))

variable [DecidableEq κ]

/-- A request: merged where its address has a list, else the owner of a new one. -/
def request (due : ℕ) (t : τ) (k : κ) (s : State τ κ) : State τ κ :=
  match s.list k with
  | some (owner, ws) =>
    { s with
      list := Function.update s.list k (some (owner, ws ++ [(s.requests, t)]))
      requests := s.requests + 1
      merged := s.merged ++ [(s.requests, owner)] }
  | none =>
    { s with
      bucket := ⟨due, s.requests, t, k⟩ :: s.bucket
      list := Function.update s.list k (some (s.requests, []))
      requests := s.requests + 1 }

/-- An answer: the requests in the list of its address are due. -/
def answer [DecidableEq τ] (now : ℕ) (f : Fill τ κ) (s : State τ κ) : State τ κ :=
  { s with
    bucket := (s.waiting f.key).map (fun w ↦ ⟨now, w.1, w.2, f.key⟩) ++ s.bucket.erase f
    list := Function.update s.list f.key none
    answered := s.answered ++ [f.number] }

end State

variable {s : State τ κ} {k k' : κ} {owner : ℕ} {ws : List (ℕ × τ)}

theorem State.waiting_of_list (h : s.list k = some (owner, ws)) : s.waiting k = ws := by
  rw [State.waiting, h, Option.elim_some]

/-! ## The places of the requests -/

/-- Every request on its way or waiting has its own number, and the owner of a list is on its
way. -/
structure Placed (s : State τ κ) : Prop where
  bucket_lt : ∀ i ∈ s.numbers, i < s.requests
  waiting_lt : ∀ k, ∀ w ∈ s.waiting k, w.1 < s.requests
  bucket_nodup : s.numbers.Nodup
  waiting_nodup : ∀ k, ((s.waiting k).map Prod.fst).Nodup
  notMem_bucket : ∀ k, ∀ w ∈ s.waiting k, w.1 ∉ s.numbers
  apart : ∀ k k', k ≠ k' → ∀ w ∈ s.waiting k, ∀ w' ∈ s.waiting k', w.1 ≠ w'.1
  owner_mem : ∀ k owner ws, s.list k = some (owner, ws) →
    ∃ f ∈ s.bucket, f.number = owner ∧ f.key = k

theorem placed_init : Placed (State.init : State τ κ) where
  bucket_lt := fun _ hi ↦ absurd hi List.not_mem_nil
  waiting_lt := fun _ _ hw ↦ absurd hw List.not_mem_nil
  bucket_nodup := List.nodup_nil
  waiting_nodup := fun _ ↦ List.nodup_nil
  notMem_bucket := fun _ _ hw ↦ absurd hw List.not_mem_nil
  apart := fun _ _ _ _ hw ↦ absurd hw List.not_mem_nil
  owner_mem := fun _ _ _ h ↦ absurd h (by simp [State.init])

/-- A number is that of one response. -/
theorem Placed.eq_of_number (h : Placed s) {f g : Fill τ κ} (hf : f ∈ s.bucket)
    (hg : g ∈ s.bucket) (hfg : f.number = g.number) : f = g :=
  List.inj_on_of_nodup_map h.bucket_nodup hf hg hfg

section Steps

variable [DecidableEq κ] {due : ℕ} {t : τ}

theorem request_of_list (h : s.list k = some (owner, ws)) :
    s.request due t k = { s with
      list := Function.update s.list k (some (owner, ws ++ [(s.requests, t)]))
      requests := s.requests + 1
      merged := s.merged ++ [(s.requests, owner)] } := by
  rw [State.request, h]

theorem request_of_none (h : s.list k = none) :
    s.request due t k = { s with
      bucket := ⟨due, s.requests, t, k⟩ :: s.bucket
      list := Function.update s.list k (some (s.requests, []))
      requests := s.requests + 1 } := by
  rw [State.request, h]

theorem list_request_of_ne (hk : k' ≠ k) (s : State τ κ) (due : ℕ) (t : τ) :
    (s.request due t k).list k' = s.list k' := by
  rw [State.request]
  split <;> exact Function.update_of_ne hk _ _

theorem list_request_of_list (h : s.list k = some (owner, ws)) :
    (s.request due t k).list k = some (owner, ws ++ [(s.requests, t)]) := by
  rw [request_of_list h]
  exact Function.update_self _ _ _

theorem list_request_of_none (h : s.list k = none) :
    (s.request due t k).list k = some (s.requests, []) := by
  rw [request_of_none h]
  exact Function.update_self _ _ _

theorem waiting_request_of_ne (hk : k' ≠ k) (s : State τ κ) (due : ℕ) (t : τ) :
    (s.request due t k).waiting k' = s.waiting k' := by
  rw [State.waiting, list_request_of_ne hk, State.waiting]

/-- Nothing waits in a new list. -/
theorem waiting_request_of_none (h : s.list k = none) (k' : κ) :
    (s.request due t k).waiting k' = s.waiting k' := by
  by_cases hk : k' = k
  · rw [hk, State.waiting, list_request_of_none h, State.waiting, h]
    rfl
  · exact waiting_request_of_ne hk s due t

/-- A request that is merged waits, and all others as before. -/
theorem mem_waiting_request_of_list (h : s.list k = some (owner, ws)) {w : ℕ × τ}
    (hw : w ∈ (s.request due t k).waiting k') :
    w ∈ s.waiting k' ∨ (k' = k ∧ w = (s.requests, t)) := by
  by_cases hk : k' = k
  · subst hk
    rw [State.waiting_of_list (list_request_of_list h)] at hw
    rcases List.mem_append.mp hw with hold | hnew
    · exact .inl (State.waiting_of_list h ▸ hold)
    · exact .inr ⟨rfl, List.mem_singleton.mp hnew⟩
  · rw [waiting_request_of_ne hk] at hw
    exact .inl hw

theorem bucket_subset_request (s : State τ κ) (due : ℕ) (t : τ) (k : κ) :
    s.bucket ⊆ (s.request due t k).bucket := by
  rw [State.request]
  split
  · exact List.Subset.refl _
  · exact List.subset_cons_self _ _

theorem requests_request (s : State τ κ) (due : ℕ) (t : τ) (k : κ) :
    (s.request due t k).requests = s.requests + 1 := by
  rw [State.request]
  split <;> rfl

/-- A request with a list of its own is on its way. -/
theorem Placed.request_of_none (h : Placed s) (hlist : s.list k = none) :
    Placed (s.request due t k) := by
  have hnumbers : (s.request due t k).numbers = s.requests :: s.numbers := by
    rw [FillOrder.request_of_none hlist]
    rfl
  have hwaiting : ∀ k', (s.request due t k).waiting k' = s.waiting k' :=
    waiting_request_of_none hlist
  constructor
  case bucket_lt =>
    intro i hi
    rw [requests_request]
    rw [hnumbers] at hi
    rcases List.mem_cons.mp hi with rfl | hi
    · exact Nat.lt_succ_self _
    · exact Nat.lt_succ_of_lt (h.bucket_lt i hi)
  case waiting_lt =>
    intro k' w hw
    rw [requests_request]
    exact Nat.lt_succ_of_lt (h.waiting_lt k' w (hwaiting k' ▸ hw))
  case bucket_nodup =>
    rw [hnumbers]
    exact List.nodup_cons.mpr ⟨fun hi ↦ (h.bucket_lt _ hi).ne rfl, h.bucket_nodup⟩
  case waiting_nodup => exact fun k' ↦ hwaiting k' ▸ h.waiting_nodup k'
  case notMem_bucket =>
    intro k' w hw hi
    rw [hwaiting] at hw
    rw [hnumbers] at hi
    rcases List.mem_cons.mp hi with hi | hi
    · exact (h.waiting_lt k' w hw).ne hi
    · exact h.notMem_bucket k' w hw hi
  case apart =>
    intro k₁ k₂ hk
    rw [hwaiting, hwaiting]
    exact h.apart k₁ k₂ hk
  case owner_mem =>
    intro k' owner ws hlist'
    by_cases hk : k' = k
    · subst hk
      rw [list_request_of_none hlist] at hlist'
      obtain ⟨rfl, -⟩ := Prod.mk.inj (Option.some.inj hlist')
      rw [FillOrder.request_of_none hlist]
      exact ⟨_, List.mem_cons_self, rfl, rfl⟩
    · rw [list_request_of_ne hk] at hlist'
      obtain ⟨f, hf, howner⟩ := h.owner_mem k' owner ws hlist'
      exact ⟨f, bucket_subset_request s due t k hf, howner⟩

/-- A request that is merged waits under a new number. -/
theorem Placed.request_of_list (h : Placed s) (hlist : s.list k = some (owner, ws)) :
    Placed (s.request due t k) := by
  have hbucket : (s.request due t k).bucket = s.bucket := by
    rw [FillOrder.request_of_list hlist]
  have hnumbers : (s.request due t k).numbers = s.numbers :=
    congrArg (List.map Fill.number) hbucket
  have hfresh : ∀ k, ∀ w ∈ s.waiting k, w.1 ≠ s.requests :=
    fun k w hw ↦ (h.waiting_lt k w hw).ne
  constructor
  case bucket_lt =>
    intro i hi
    rw [requests_request]
    exact Nat.lt_succ_of_lt (h.bucket_lt i (hnumbers ▸ hi))
  case waiting_lt =>
    intro k' w hw
    rw [requests_request]
    rcases mem_waiting_request_of_list hlist hw with hold | ⟨-, rfl⟩
    · exact Nat.lt_succ_of_lt (h.waiting_lt k' w hold)
    · exact Nat.lt_succ_self _
  case bucket_nodup => exact hnumbers ▸ h.bucket_nodup
  case waiting_nodup =>
    intro k'
    by_cases hk : k' = k
    · subst hk
      have hws := State.waiting_of_list hlist
      rw [State.waiting_of_list (list_request_of_list hlist), List.map_append, List.map_singleton,
        ← List.concat_eq_append]
      refine (hws ▸ h.waiting_nodup k').concat fun hmem ↦ ?_
      obtain ⟨w, hw, hnumber⟩ := List.mem_map.mp hmem
      exact hfresh k' w (hws ▸ hw) hnumber
    · rw [waiting_request_of_ne hk]
      exact h.waiting_nodup k'
  case notMem_bucket =>
    intro k' w hw hi
    rw [hnumbers] at hi
    rcases mem_waiting_request_of_list hlist hw with hold | ⟨-, rfl⟩
    · exact h.notMem_bucket k' w hold hi
    · exact (h.bucket_lt _ hi).ne rfl
  case apart =>
    intro k₁ k₂ hk w hw w' hw' hww'
    rcases mem_waiting_request_of_list hlist hw with hold | ⟨hk₁, hnew⟩
    · rcases mem_waiting_request_of_list hlist hw' with hold' | ⟨-, hnew'⟩
      · exact h.apart k₁ k₂ hk w hold w' hold' hww'
      · exact hfresh k₁ w hold (hww'.trans (congrArg Prod.fst hnew'))
    · rcases mem_waiting_request_of_list hlist hw' with hold' | ⟨hk₂, -⟩
      · exact hfresh k₂ w' hold' (hww'.symm.trans (congrArg Prod.fst hnew))
      · exact hk (hk₁.trans hk₂.symm)
  case owner_mem =>
    intro k' owner' ws' hlist'
    rw [hbucket]
    by_cases hk : k' = k
    · subst hk
      rw [list_request_of_list hlist] at hlist'
      obtain ⟨rfl, -⟩ := Prod.mk.inj (Option.some.inj hlist')
      exact h.owner_mem k' owner ws hlist
    · rw [list_request_of_ne hk] at hlist'
      exact h.owner_mem k' owner' ws' hlist'

theorem Placed.request (h : Placed s) (due : ℕ) (t : τ) (k : κ) :
    Placed (s.request due t k) := by
  rcases hlist : s.list k with - | ⟨owner, ws⟩
  · exact h.request_of_none hlist
  · exact h.request_of_list hlist

variable [DecidableEq τ] {now : ℕ} {f : Fill τ κ}

theorem list_answer (s : State τ κ) (now : ℕ) (f : Fill τ κ) (k : κ) :
    (s.answer now f).list k = if k = f.key then none else s.list k :=
  Function.update_apply _ _ _ _

/-- After an answer the requests of other addresses wait as before. -/
theorem waiting_answer (s : State τ κ) (now : ℕ) (f : Fill τ κ) (k : κ) :
    (s.answer now f).waiting k = if k = f.key then [] else s.waiting k := by
  rw [State.waiting, list_answer]
  split <;> rfl

theorem mem_waiting_answer {w : ℕ × τ} (h : w ∈ (s.answer now f).waiting k) :
    k ≠ f.key ∧ w ∈ s.waiting k := by
  rw [waiting_answer] at h
  split at h
  · exact absurd h List.not_mem_nil
  · next hk => exact ⟨hk, h⟩

/-- The numbers on their way, with those of the list that is drained. -/
theorem numbers_answer (s : State τ κ) (now : ℕ) (f : Fill τ κ) :
    (s.answer now f).numbers =
      (s.waiting f.key).map Prod.fst ++ (s.bucket.erase f).map Fill.number := by
  rw [State.numbers, State.answer, List.map_append, List.map_map]
  rfl

theorem mem_numbers_answer {i : ℕ} (h : i ∈ (s.answer now f).numbers) :
    (∃ w ∈ s.waiting f.key, w.1 = i) ∨ i ∈ s.numbers := by
  rw [numbers_answer] at h
  rcases List.mem_append.mp h with hi | hi
  · exact .inl (List.mem_map.mp hi)
  · exact .inr (List.map_subset _ (List.erase_subset) hi)

theorem Placed.answer (h : Placed s) (now : ℕ) (f : Fill τ κ) : Placed (s.answer now f) := by
  constructor
  case bucket_lt =>
    intro i hi
    rcases mem_numbers_answer hi with ⟨w, hw, rfl⟩ | hi
    · exact h.waiting_lt f.key w hw
    · exact h.bucket_lt i hi
  case waiting_lt => exact fun k w hw ↦ h.waiting_lt k w (mem_waiting_answer hw).2
  case bucket_nodup =>
    rw [numbers_answer]
    refine (h.waiting_nodup f.key).append ?_ ?_
    · exact h.bucket_nodup.sublist (List.erase_sublist.map _)
    · intro i hi hi'
      obtain ⟨w, hw, rfl⟩ := List.mem_map.mp hi
      exact h.notMem_bucket f.key w hw (List.map_subset _ List.erase_subset hi')
  case waiting_nodup =>
    intro k
    rw [waiting_answer]
    split
    · exact List.nodup_nil
    · exact h.waiting_nodup k
  case notMem_bucket =>
    intro k w hw hi
    obtain ⟨hk, hw⟩ := mem_waiting_answer hw
    rcases mem_numbers_answer hi with ⟨w', hw', hi⟩ | hi
    · exact h.apart k f.key hk w hw w' hw' hi.symm
    · exact h.notMem_bucket k w hw hi
  case apart =>
    intro k₁ k₂ hk w hw w' hw'
    exact h.apart k₁ k₂ hk w (mem_waiting_answer hw).2 w' (mem_waiting_answer hw').2
  case owner_mem =>
    intro k owner ws hlist
    rw [list_answer] at hlist
    obtain ⟨hk, hlist⟩ := Option.ite_none_left_eq_some.mp hlist
    obtain ⟨g, hg, howner, hkey⟩ := h.owner_mem k owner ws hlist
    have hgf : g ≠ f := fun hgf ↦ hk (hgf ▸ hkey.symm)
    exact ⟨g, List.mem_append_right _ ((List.mem_erase_of_ne hgf).mpr hg), howner, hkey⟩

end Steps

/-! ## The order of the answers -/

/-- A merged request and the owner of its list: the one waits for the other, the owner is answered,
or both are on their way and the owner is due first. -/
def Behind (s : State τ κ) (i owner : ℕ) : Prop :=
  (∃ k ws, s.list k = some (owner, ws) ∧ ∃ w ∈ ws, w.1 = i) ∨ owner ∈ s.answered ∨
    ∃ f ∈ s.bucket, ∃ g ∈ s.bucket, f.number = owner ∧ g.number = i ∧ f.due < g.due

/-- What holds after every number of steps. -/
structure Ordered (s : State τ κ) : Prop where
  placed : Placed s
  answered_lt : ∀ i ∈ s.answered, i < s.requests
  behind : ∀ i owner, (i, owner) ∈ s.merged → Behind s i owner
  waits : s.Waits

theorem ordered_init : Ordered (State.init : State τ κ) where
  placed := placed_init
  answered_lt := fun _ hi ↦ absurd hi List.not_mem_nil
  behind := fun _ _ h ↦ absurd h List.not_mem_nil
  waits := fun _ _ _ _ h ↦ absurd h List.not_mem_nil

/-- **The owner was answered** when the earliest response is that of a merged request. -/
theorem Ordered.owner_answered {f : Fill τ κ} (h : Ordered s) (hf : f ∈ s.bucket)
    (hmin : ∀ g ∈ s.bucket, f.due ≤ g.due) (hmem : (f.number, owner) ∈ s.merged) :
    owner ∈ s.answered := by
  rcases h.behind _ _ hmem with ⟨k, ws, hlist, w, hw, hnumber⟩ | hanswered | hdue
  · have hwaiting : w ∈ s.waiting k := State.waiting_of_list hlist ▸ hw
    refine absurd ?_ (h.placed.notMem_bucket k w hwaiting)
    exact hnumber ▸ List.mem_map_of_mem hf
  · exact hanswered
  · obtain ⟨g, hg, g', hg', -, hnumber, hlt⟩ := hdue
    obtain rfl := h.placed.eq_of_number hg' hf hnumber
    exact absurd (hmin g hg) hlt.not_ge

variable [DecidableEq κ] {i : ℕ}

theorem Behind.request (h : Behind s i owner) (due : ℕ) (t : τ) (k : κ) :
    Behind (s.request due t k) i owner := by
  rcases h with ⟨k', ws, hlist, w, hw, rfl⟩ | hanswered | ⟨f, hf, g, hg, hdue⟩
  · refine .inl ?_
    by_cases hk : k' = k
    · subst hk
      exact ⟨k', _, list_request_of_list hlist, w, List.mem_append_left _ hw, rfl⟩
    · exact ⟨k', ws, (list_request_of_ne hk s due t).trans hlist, w, hw, rfl⟩
  · refine .inr (.inl ?_)
    rw [State.request]
    split <;> exact hanswered
  · have hsub := bucket_subset_request s due t k
    exact .inr (.inr ⟨f, hsub hf, g, hsub hg, hdue⟩)

theorem Ordered.request (h : Ordered s) (due : ℕ) (t : τ) (k : κ) :
    Ordered (s.request due t k) := by
  have hanswered : (s.request due t k).answered = s.answered := by
    rw [State.request]
    split <;> rfl
  have hmerged : ∀ i owner, (i, owner) ∈ (s.request due t k).merged →
      (i, owner) ∈ s.merged ∨ i = s.requests ∧ Behind (s.request due t k) i owner := by
    intro i owner hmem
    rcases hlist : s.list k with - | ⟨owner', ws⟩
    · rw [request_of_none hlist] at hmem
      exact .inl hmem
    · have hmem' : (i, owner) ∈ s.merged ++ [(s.requests, owner')] := by
        rwa [request_of_list hlist] at hmem
      rcases List.mem_append.mp hmem' with hold | hnew
      · exact .inl hold
      · obtain ⟨rfl, rfl⟩ := Prod.mk.inj (List.mem_singleton.mp hnew)
        refine .inr ⟨rfl, .inl ⟨k, _, list_request_of_list hlist, (s.requests, t), ?_, rfl⟩⟩
        exact List.mem_append_right _ List.mem_cons_self
  constructor
  case placed => exact h.placed.request due t k
  case answered_lt =>
    intro i hi
    rw [requests_request]
    exact Nat.lt_succ_of_lt (h.answered_lt i (hanswered ▸ hi))
  case behind =>
    intro i owner hmem
    rcases hmerged i owner hmem with hold | ⟨-, hnew⟩
    · exact (h.behind i owner hold).request due t k
    · exact hnew
  case waits =>
    intro pre i owner hpre hmem
    rw [hanswered] at hpre
    rcases hmerged i owner hmem with hold | ⟨rfl, -⟩
    · exact h.waits pre i owner hpre hold
    · have hi := hpre.subset (List.mem_append_right _ List.mem_cons_self)
      exact absurd (h.answered_lt _ hi) (lt_irrefl _)

variable [DecidableEq τ] {now : ℕ} {f : Fill τ κ}

theorem Behind.answer (hplaced : Placed s) (hmerged : f.number ≠ i) (h : Behind s i owner)
    (hdrain : s.DrainsInOrder now f) : Behind (s.answer now f) i owner := by
  have hkept : ∀ g ∈ s.bucket, g.number ≠ f.number → g ∈ (s.answer now f).bucket := by
    intro g hg hgf
    have hne : g ≠ f := fun h ↦ hgf (congrArg Fill.number h)
    exact List.mem_append_right _ ((List.mem_erase_of_ne hne).mpr hg)
  by_cases howner : owner = f.number
  · subst howner
    exact .inr (.inl (List.mem_append_right _ List.mem_cons_self))
  rcases h with ⟨k, ws, hlist, w, hw, rfl⟩ | hanswered | ⟨g, hg, g', hg', rfl, rfl, hdue⟩
  · by_cases hk : k = f.key
    -- The list is drained: its owner is due before now, and the requests in it are due now.
    · subst hk
      obtain ⟨g, hg, rfl, -⟩ := hplaced.owner_mem _ _ _ hlist
      have hws : ws ≠ [] := List.ne_nil_of_mem hw
      have hdue := hdrain _ hlist hws howner g hg rfl
      have hw' : (⟨now, w.1, w.2, f.key⟩ : Fill τ κ) ∈ (s.answer now f).bucket := by
        rw [State.answer, State.waiting_of_list hlist]
        exact List.mem_append_left _ (List.mem_map_of_mem hw)
      exact .inr (.inr ⟨g, hkept g hg howner, _, hw', rfl, rfl, hdue⟩)
    · refine .inl ⟨k, ws, ?_, w, hw, rfl⟩
      rw [list_answer, if_neg hk, hlist]
  · exact .inr (.inl (List.mem_append_left _ hanswered))
  · exact .inr (.inr ⟨g, hkept g hg howner, g', hkept g' hg' (Ne.symm hmerged), rfl, rfl, hdue⟩)

/-- **An answer that drains in order keeps the order.** -/
theorem Ordered.answer (h : Ordered s) (hf : f ∈ s.bucket)
    (hmin : ∀ g ∈ s.bucket, f.due ≤ g.due) (hdrain : s.DrainsInOrder now f) :
    Ordered (s.answer now f) := by
  constructor
  case placed => exact h.placed.answer now f
  case answered_lt =>
    intro i hi
    rcases List.mem_append.mp hi with hi | hi
    · exact h.answered_lt i hi
    · obtain rfl := List.mem_singleton.mp hi
      exact h.placed.bucket_lt _ (List.mem_map_of_mem hf)
  case behind =>
    intro i owner hmem
    by_cases hi : f.number = i
    · subst hi
      exact .inr (.inl (List.mem_append_left _ (h.owner_answered hf hmin hmem)))
    · exact (h.behind i owner hmem).answer h.placed hi hdrain
  case waits =>
    intro pre i owner hpre hmem
    rcases List.prefix_concat_iff.mp hpre with heq | hpre
    · obtain ⟨rfl, hlast⟩ := List.append_inj' heq rfl
      obtain rfl := (List.cons.inj hlast).1
      exact h.owner_answered hf hmin hmem
    · exact h.waits pre i owner hpre hmem

end FillOrder
