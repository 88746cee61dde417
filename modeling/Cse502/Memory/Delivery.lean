import Cse502.Library.DelayQueue
import Cse502.Memory.Merges

/-!
# Delivery by `delaybucket`

Any calls of `add` and `get` on one bucket, at times that do not decrease. Each call is a step of a
queue that holds items back, for every choice the priority queue makes among the entries that are
due first, so the entries leave when they are due and in the order of their due times.

An entry does not starve. Once its due time has passed nothing is added in front of it, and every
`get` takes one of those that are due no later.
-/

namespace Cse502.DelayBucket

variable {α : Type*}

/-! ## What is on top -/

/-- One of the entries is due first. -/
theorem tops_ne_nil {b : DelayBucket α} (h : b.pq ≠ []) : b.tops ≠ [] := by
  obtain ⟨e, he⟩ : ∃ e, e ∈ b.pq.argmin Prod.fst :=
    Option.ne_none_iff_exists'.mp (mt List.argmin_eq_none.mp h)
  refine List.ne_nil_of_mem (List.mem_filter.mpr ⟨List.argmin_mem he, ?_⟩)
  refine List.all_eq_true.mpr fun e' he' ↦ decide_eq_true ?_
  exact List.le_of_mem_argmin he' he

/-- Nothing is on top only when nothing is due. -/
theorem lt_of_top_none {b : DelayBucket α} {now pick : ℕ} (h : b.top now pick = none) :
    ∀ e ∈ b.pq, now < e.1 := by
  intro e he
  have hpos : 0 < b.tops.length := List.length_pos_iff.mpr (tops_ne_nil (List.ne_nil_of_mem he))
  have hlt : pick % b.tops.length < b.tops.length := Nat.mod_lt _ hpos
  rw [top, List.getElem?_eq_getElem hlt, Option.filter_eq_none_iff] at h
  obtain ⟨-, hall⟩ := List.mem_filter.mp (List.getElem_mem hlt)
  have hle : (b.tops[pick % b.tops.length]).1 ≤ e.1 :=
    of_decide_eq_true (List.all_eq_true.mp hall e he)
  have hdue : ¬(b.tops[pick % b.tops.length]).1 ≤ now := fun hdue ↦
    h _ rfl (decide_eq_true hdue)
  omega

/-- **`get` returns nothing if and only if nothing is due.** -/
theorem get_eq_none_iff [DecidableEq α] {b : DelayBucket α} {now pick : ℕ} :
    b.get now pick = none ↔ ∀ e ∈ b.pq, now < e.1 := by
  constructor
  · intro h
    rcases htop : b.top now pick with - | e
    · exact lt_of_top_none htop
    · obtain ⟨b', hget, -⟩ := get_of_top htop
      rw [h] at hget
      cases hget
  · exact fun h ↦ get_of_top_none (top_of_not_due h pick)

/-! ## Calls on a bucket -/

/-- A call of a member function, with the simulation time. -/
inductive Call (α : Type*)
  | add (now : ℕ) (v : α) (delay : ℕ)
  | get (now pick : ℕ)
  deriving DecidableEq, Repr

/-- When the call is made. -/
def Call.now : Call α → ℕ
  | .add now _ _ => now
  | .get now _ => now

/-- What an `add` puts into the bucket. -/
def Call.entry : Call α → Option (ℕ × α)
  | .add now v delay => some (now + delay, v)
  | .get _ _ => none

/-- The call is a `get`. -/
def Call.isGet : Call α → Bool
  | .add _ _ _ => false
  | .get _ _ => true

/-- A value that `get` returned, with the time of the call and its due time. -/
structure Returned (α : Type*) where
  time : ℕ
  due : ℕ
  value : α
  deriving DecidableEq, Repr

/-- What was put in for it. -/
def Returned.entry (r : Returned α) : ℕ × α := (r.due, r.value)

/-- A bucket and what it has returned so far. -/
structure Delivery (α : Type*) where
  bucket : DelayBucket α
  returned : List (Returned α)

namespace Delivery

/-- An empty bucket. -/
def start : Delivery α := ⟨⟨[]⟩, []⟩

/-- The queue behind a bucket. -/
def toQueue (d : Delivery α) : DelayQueue.State (ℕ × α) ℕ :=
  ⟨d.bucket.pq, d.returned.map fun r ↦ (r.time, r.entry)⟩

theorem toQueue_returned (d : Delivery α) (b : DelayBucket α) (now : ℕ) (e : ℕ × α) :
    toQueue ⟨b, d.returned ++ [⟨now, e.1, e.2⟩]⟩ = ⟨b.pq, d.toQueue.left ++ [(now, e)]⟩ := by
  rw [toQueue, List.map_append]
  rfl

theorem toQueue_pending {d : Delivery α} {b : DelayBucket α} {e : ℕ × α}
    (h : d.bucket.pq.Perm (e :: b.pq)) : d.toQueue.pending = e ::ₘ (b.pq : Multiset (ℕ × α)) :=
  Multiset.coe_eq_coe.mpr h

/-- The number of entries due by a given time. -/
def dueBy (t : ℕ) (d : Delivery α) : ℕ := d.bucket.pq.countP fun e ↦ e.1 ≤ t

variable [DecidableEq α]

/-- One call, with what it returns on record. -/
def call (d : Delivery α) : Call α → Delivery α
  | .add now v delay => { d with bucket := d.bucket.add now v delay }
  | .get now pick =>
    match d.bucket.top now pick, d.bucket.get now pick with
    | some e, some (v, bucket) => ⟨bucket, d.returned ++ [⟨now, e.1, v⟩]⟩
    | _, _ => d

/-- Calls one after another. -/
def run (calls : List (Call α)) : Delivery α := calls.foldl call start

theorem run_append (calls calls' : List (Call α)) :
    run (calls ++ calls') = calls'.foldl call (run calls) := List.foldl_append

theorem run_concat (calls : List (Call α)) (c : Call α) :
    run (calls ++ [c]) = (run calls).call c := by
  rw [run_append]
  rfl

/-- What a `get` does: nothing is due, or an entry that is due first leaves. -/
inductive GetOutcome (now : ℕ) (d : Delivery α) : Delivery α → Prop
  | none (hdue : ∀ e ∈ d.bucket.pq, now < e.1) : GetOutcome now d d
  | some (e : ℕ × α) (b : DelayBucket α) (hperm : d.bucket.pq.Perm (e :: b.pq))
      (hfirst : ∀ e' ∈ d.bucket.pq, e.1 ≤ e'.1) (hdue : e.1 ≤ now) :
      GetOutcome now d ⟨b, d.returned ++ [⟨now, e.1, e.2⟩]⟩

theorem call_get (d : Delivery α) (now pick : ℕ) :
    GetOutcome now d (d.call (.get now pick)) := by
  rcases htop : d.bucket.top now pick with - | e
  · have hcall : d.call (.get now pick) = d := by rw [call, htop]
    rw [hcall]
    exact .none (lt_of_top_none htop)
  · obtain ⟨b, hget, hperm⟩ := get_of_top htop
    have hcall : d.call (.get now pick) = ⟨b, d.returned ++ [⟨now, e.1, e.2⟩]⟩ := by
      rw [call, htop, hget]
    obtain ⟨-, hdue⟩ := Option.filter_eq_some_iff.mp htop
    rw [hcall]
    exact .some e b hperm (top_eq_some htop).2 (of_decide_eq_true hdue)

/-! ## The bucket as a queue that holds items back -/

theorem call_step (d : Delivery α) (c : Call α) :
    DelayQueue.Step Prod.fst c.now d.toQueue (d.call c).toQueue := by
  cases c with
  | add now v delay => exact .add (now + delay, v) (Nat.le_add_right now delay)
  | get now pick =>
    have houtcome := call_get d now pick
    generalize d.call (.get now pick) = d' at houtcome ⊢
    rcases houtcome with hdue | ⟨e, b, hperm, hfirst, hdue⟩
    · exact .idle hdue
    · rw [toQueue_returned]
      refine .take e b.pq (toQueue_pending hperm) (fun e' he' ↦ ?_) hdue
      exact hfirst e' (hperm.mem_iff.mpr (List.mem_cons_of_mem e he'))

/-- Every bucket that is called at times that do not decrease. -/
theorem run_reachable (calls : List (Call α)) (hmono : (calls.map Call.now).Pairwise (· ≤ ·))
    {now : ℕ} (hnow : ∀ c ∈ calls, c.now ≤ now) :
    DelayQueue.Reachable Prod.fst now (run calls).toQueue := by
  induction calls using List.reverseRecOn generalizing now with
  | nil => exact .start now
  | append_singleton calls c ih =>
    rw [List.map_append, List.pairwise_append] at hmono
    rw [List.forall_mem_append] at hnow
    have hbefore : ∀ c' ∈ calls, c'.now ≤ c.now := fun c' hc' ↦
      hmono.2.2 _ (List.mem_map_of_mem hc') _ (List.mem_singleton_self _)
    rw [run_concat]
    exact ((ih hmono.1 hbefore).step (call_step _ c)).later (hnow.2 c (List.mem_singleton_self c))

/-- What is in the bucket, and what has left it, was put in. -/
theorem call_items (d : Delivery α) (c : Call α) :
    (d.call c).toQueue.items = (c.entry.toList : Multiset (ℕ × α)) + d.toQueue.items := by
  cases c with
  | add now v delay => exact DelayQueue.items_add (s := d.toQueue)
  | get now pick =>
    rw [Call.entry, Option.toList_none, Multiset.coe_nil, zero_add]
    have houtcome := call_get d now pick
    generalize d.call (.get now pick) = d' at houtcome ⊢
    rcases houtcome with hdue | ⟨e, b, hperm, hfirst, hdue⟩
    · rfl
    · rw [toQueue_returned]
      exact DelayQueue.items_take (toQueue_pending hperm) now

theorem run_items (calls : List (Call α)) :
    (run calls).toQueue.items = (calls.filterMap Call.entry : List (ℕ × α)) := by
  induction calls using List.reverseRecOn with
  | nil => rfl
  | append_singleton calls c ih =>
    rw [run_concat, call_items, ih, List.filterMap_append, ← Multiset.coe_add, add_comm]
    rfl

/-! ## No entry starves -/

/-- Once a time has passed, a call takes one of the entries due by then or adds none to them. -/
theorem dueBy_call (d : Delivery α) {c : Call α} {t : ℕ} (ht : t < c.now) :
    (d.call c).dueBy t = d.dueBy t - if c.isGet then 1 else 0 := by
  cases c with
  | add now v delay =>
    rw [dueBy, call, add, List.countP_cons_of_neg]
    · rfl
    · rw [decide_eq_true_eq, not_le]
      exact ht.trans_le (Nat.le_add_right now delay)
  | get now pick =>
    have houtcome := call_get d now pick
    generalize d.call (.get now pick) = d' at houtcome ⊢
    rcases houtcome with hdue | ⟨e, b, hperm, hfirst, hdue⟩
    · -- nothing is due now, so nothing was due before
      have hzero : d.dueBy t = 0 := by
        rw [dueBy, List.countP_eq_zero]
        intro e he
        rw [decide_eq_true_eq, not_le]
        exact ht.trans (hdue e he)
      rw [hzero, Nat.zero_sub]
    · rw [dueBy, dueBy, hperm.countP_eq]
      by_cases he : e.1 ≤ t
      · rw [List.countP_cons_of_pos (p := fun e : ℕ × α ↦ decide (e.1 ≤ t)) (decide_eq_true he)]
        rfl
      · -- the entry that leaves is due first, so there was none to count
        have hnone : ∀ l : List (ℕ × α), (∀ e' ∈ l, e' ∈ d.bucket.pq) →
            l.countP (fun e' ↦ e'.1 ≤ t) = 0 := by
          intro l hl
          rw [List.countP_eq_zero]
          intro e' he'
          rw [decide_eq_true_eq]
          have := hfirst e' (hl e' he')
          omega
        rw [hnone (e :: b.pq) fun e' he' ↦ hperm.mem_iff.mpr he',
          hnone b.pq fun e' he' ↦ hperm.mem_iff.mpr (List.mem_cons_of_mem e he'), Nat.zero_sub]

theorem dueBy_foldl (d : Delivery α) {calls : List (Call α)} {t : ℕ}
    (ht : ∀ c ∈ calls, t < c.now) :
    (calls.foldl call d).dueBy t = d.dueBy t - calls.countP Call.isGet := by
  induction calls generalizing d with
  | nil => rfl
  | cons c calls ih =>
    rw [List.forall_mem_cons] at ht
    rw [List.foldl_cons, ih _ ht.2, dueBy_call d ht.1, List.countP_cons, Nat.sub_sub,
      Nat.add_comm]

/-- **`delaybucket` delivers on time and in order.** Whatever is called, at times that do not
decrease: `get` returns nothing if and only if nothing in the bucket is due; what was added is what
was returned and what is still there, once each; nothing was returned before its due time, and the
due times of what was returned do not decrease. The entries due by a time are returned once that
time has passed and `get` was called as often as there are such entries. -/
theorem run_delivers (calls : List (Call α)) (hmono : (calls.map Call.now).Pairwise (· ≤ ·)) :
    let d := run calls
    (∀ now pick, d.bucket.get now pick = none ↔ ∀ e ∈ d.bucket.pq, now < e.1) ∧
    (d.returned.map Returned.entry ++ d.bucket.pq).Perm (calls.filterMap Call.entry) ∧
    (∀ r ∈ d.returned, r.due ≤ r.time) ∧
    (d.returned.map Returned.due).Pairwise (· ≤ ·) ∧
    ∀ (before after : List (Call α)) (t : ℕ), calls = before ++ after →
      (∀ c ∈ after, t < c.now) → (run before).dueBy t ≤ after.countP Call.isGet →
      ∀ e ∈ d.bucket.pq, t < e.1 := by
  intro d
  obtain ⟨now, hnow⟩ : ∃ now, ∀ c ∈ calls, c.now ≤ now :=
    ⟨(calls.map Call.now).sum, fun c hc ↦ List.le_sum_of_mem (List.mem_map_of_mem hc)⟩
  have hordered := (run_reachable calls hmono hnow).ordered
  refine ⟨fun _ _ ↦ get_eq_none_iff, ?_, ?_, ?_, ?_⟩
  · have hitems := run_items calls
    rw [DelayQueue.State.items, toQueue, List.map_map] at hitems
    exact Multiset.coe_eq_coe.mp hitems
  · exact fun r hr ↦ hordered.due_le _ (List.mem_map_of_mem hr)
  · have hsorted := hordered.sorted
    rw [toQueue, List.map_map] at hsorted
    exact hsorted
  · rintro before after t rfl hafter hgets e he
    have hzero : (run (before ++ after)).dueBy t = 0 := by
      rw [run_append, dueBy_foldl _ hafter, Nat.sub_eq_zero_of_le hgets]
    have := List.countP_eq_zero.mp hzero e he
    rwa [decide_eq_true_eq, not_le] at this

/-- Two entries, the second added after a pop and due at once. -/
theorem run_delivers_two :
    (run [.add 0 'a' 5, .get 5 0, .add 5 'b' 0, .get 6 0]).returned.map Returned.due = [5, 5] ∧
      ((run [.add 0 'a' 5, .get 5 0, .add 5 'b' 0, .get 6 0]).returned.map
        Returned.due).Pairwise (· ≤ ·) :=
  ⟨by decide, (run_delivers [.add 0 'a' 5, .get 5 0, .add 5 'b' 0, .get 6 0] (by decide)).2.2.2.1⟩

end Delivery

end Cse502.DelayBucket
