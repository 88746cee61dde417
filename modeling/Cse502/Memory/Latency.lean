import Cse502.Memory.Delivery
import Cse502.Memory.Steps

/-!
# No request waits forever

`Fetch` and `Execute` keep their requests on the port, so a side is asked the same thing in every
cycle until it answers; all of that is merged, and is answered later, one request in a cycle. A
response that was merged is due at once, in front of whatever is asked afterwards. Still the answers
to what nobody waits for any more do not pile up.

## The invariant

A request that has not been asked for longer than the highest latency cannot be due. So, for a time
`θ` that has not come yet, those that are not due before `θ`, counting a merged request with the
response it waits for, were all asked after `θ` less that latency, one in a cycle at most
(`Timely.late`). In a cycle with nothing to answer that is all of them, and only in such cycles
their number grows.
-/

namespace Cse502

open Merging (waiting)

namespace Side

/-! ## What a port does in a cycle -/

/-- The part of a cycle that answers, with one port. -/
inductive Answers (now : ℕ) (s : Side) : Option Response → Side → Prop
  | nothing (hdue : ∀ e ∈ s.resp.pq, now < e.1) : Answers now s none s
  | sent (r : Response) (s' : Side) (pick : ℕ) (h : s.respond now pick = some (r, s')) :
    Answers now s (some r) s'

/-- The part that takes requests, with one port. -/
inductive Takes (now limit : ℕ) (s : Side) : Option Response → Side → Prop
  | nothing : Takes now limit s none s
  | merged (tag : BitVec 32) (addr : Word) (tags : List (BitVec 32))
      (h : s.mshr.lookup addr = some tags) :
    Takes now limit s (some (tag, addr)) (s.merge tag addr tags)
  | launched (tag : BitVec 32) (addr : Word) (latency : ℕ) (h : s.mshr.lookup addr = none)
      (hlatency : latency * 1000 ≤ limit) :
    Takes now limit s (some (tag, addr)) (s.launch now tag addr latency)

/-- A cycle of a side with one port. -/
def Turn (now limit : ℕ) (s : Side) (sent asked : Option Response) (s' : Side) : Prop :=
  ∃ s₁, Answers now s sent s₁ ∧ Takes now limit s₁ asked s'

variable {now limit c W θ t pick : ℕ} {s s' : Side} {sent asked : Option Response} {r : Response}

/-- The entries after calls of `add` that are due at once. -/
private theorem pq_release (a : Word) (tags : List (BitVec 32)) (b : DelayBucket Response) :
    (tags.foldl (fun b tag ↦ b.add now (tag, a) 0) b).pq.Perm
      (tags.map (fun tag ↦ (now, (tag, a))) ++ b.pq) := by
  induction tags generalizing b with
  | nil => exact .refl _
  | cons tag tags ih =>
    rw [List.foldl_cons, List.map_cons]
    exact (ih _).trans List.perm_middle

/-- An entry that is due first is taken out, and what waits behind its address is due now. -/
theorem respond_cases (h : s.respond now pick = some (r, s')) :
    ∃ t b, t ≤ now ∧ (∀ e ∈ s.resp.pq, t ≤ e.1) ∧ s.resp.pq.Perm ((t, r) :: b) ∧
      ((s.mshr.lookup r.2 = none ∧ s'.mshr = s.mshr ∧ s'.resp.pq = b) ∨
        ∃ tags, s.mshr.lookup r.2 = some tags ∧ s'.mshr = s.mshr.erase r.2 ∧
          s'.resp.pq.Perm (tags.map (fun tag ↦ (now, (tag, r.2))) ++ b)) := by
  rw [respond, Option.map_eq_some_iff] at h
  obtain ⟨⟨v, b⟩, hget, h⟩ := h
  have hfst : v = r := by
    split at h <;> exact congrArg Prod.fst h
  subst hfst
  cases htop : s.resp.top now pick with
  | none =>
    rw [DelayBucket.get_of_top_none htop] at hget
    cases hget
  | some e =>
    obtain ⟨b', hget', hperm⟩ := DelayBucket.get_of_top htop
    rw [hget'] at hget
    obtain ⟨rfl, rfl⟩ := Prod.mk.inj (Option.some.inj hget)
    obtain ⟨-, hdue⟩ := Option.filter_eq_some_iff.mp htop
    refine ⟨e.1, b'.pq, of_decide_eq_true hdue, (DelayBucket.top_eq_some htop).2, hperm, ?_⟩
    dsimp only at h
    split at h
    · next tags hlookup =>
      obtain ⟨-, rfl⟩ := Prod.mk.inj h
      exact .inr ⟨tags, hlookup, rfl, pq_release _ _ _⟩
    · next hlookup =>
      obtain ⟨-, rfl⟩ := Prod.mk.inj h
      exact .inl ⟨hlookup, rfl, rfl⟩

/-! ## What is not due before a time -/

/-- A request for this address is not answered before a time. -/
def HeldBack (θ : ℕ) (pq : List (ℕ × Response)) (a : Word) : Prop :=
  ∀ e ∈ pq, e.2.2 = a → θ ≤ e.1

instance (θ : ℕ) (pq : List (ℕ × Response)) : DecidablePred (HeldBack θ pq) := fun a ↦
  inferInstanceAs (Decidable (∀ e ∈ pq, e.2.2 = a → θ ≤ e.1))

/-- How many requests wait behind others that are not due before a time. -/
def heldBack (θ : ℕ) (pq : List (ℕ × Response)) (m : Multiset Response) : ℕ :=
  m.countP fun r ↦ HeldBack θ pq r.2

/-- How many entries are not due before a time. -/
def undue (θ : ℕ) (pq : List (ℕ × Response)) : ℕ := pq.countP fun e ↦ θ ≤ e.1

/-- How many requests are not due before a time. -/
def late (θ : ℕ) (s : Side) : ℕ := undue θ s.resp.pq + heldBack θ s.resp.pq (waiting s.mshr)

theorem late_merge {tag : BitVec 32} {addr : Word} {tags : List (BitVec 32)}
    (h : s.mshr.lookup addr = some tags) (θ : ℕ) :
    (s.merge tag addr tags).late θ ≤ s.late θ + 1 := by
  have hwaiting : heldBack θ s.resp.pq (waiting (s.mshr.insert addr (tags ++ [tag]))) ≤
      heldBack θ s.resp.pq (waiting s.mshr) + 1 := by
    rw [heldBack, Merging.waiting_insert_concat h, Multiset.countP_cons]
    exact Nat.add_le_add_left (by split_ifs <;> omega) _
  exact Nat.add_le_add_left hwaiting _

theorem late_launch {tag : BitVec 32} {addr : Word} {latency : ℕ} (h : s.mshr.lookup addr = none)
    (θ : ℕ) : (s.launch now tag addr latency).late θ ≤ s.late θ + 1 := by
  have hwaiting : waiting (s.mshr.insert addr []) = waiting s.mshr := by
    rw [Merging.waiting_insert (Finmap.lookup_eq_none.mp h)]
    exact zero_add _
  have hmore : heldBack θ ((now + latency * 1000, (tag, addr)) :: s.resp.pq)
      (waiting (s.mshr.insert addr [])) ≤ heldBack θ s.resp.pq (waiting s.mshr) := by
    rw [hwaiting, heldBack, heldBack, Multiset.countP_eq_card_filter,
      Multiset.countP_eq_card_filter]
    refine Multiset.card_le_card (Multiset.monotone_filter_right _ fun r hr e he ↦ ?_)
    exact hr e (List.mem_cons_of_mem _ he)
  have hpq : undue θ ((now + latency * 1000, (tag, addr)) :: s.resp.pq) ≤
      undue θ s.resp.pq + 1 := by
    rw [undue, List.countP_cons]
    exact Nat.add_le_add_left (by split_ifs <;> omega) _
  exact (Nat.add_le_add hpq hmore).trans_eq (by rw [late]; omega)

/-- What waits for another address is not moved by an answer. -/
private theorem heldBack_congr (a : Word) {pq pq' : List (ℕ × Response)}
    {m : Multiset Response} (hm : ∀ x ∈ m, x.2 ≠ a)
    (hpq : ∀ e : ℕ × Response, e.2.2 ≠ a → (e ∈ pq' ↔ e ∈ pq)) :
    heldBack θ pq' m = heldBack θ pq m := by
  refine Multiset.countP_congr rfl fun x hx ↦ propext ?_
  refine forall_congr' fun e ↦ ⟨fun h he hea ↦ h ((hpq e ?_).mpr he) hea,
    fun h he hea ↦ h ((hpq e ?_).mp he) hea⟩ <;> exact hea ▸ hm x hx

/-- Nothing that is answered was late, and nothing that is released is. -/
theorem late_respond (h : s.respond now pick = some (r, s')) (hθ : now < θ) :
    s'.late θ ≤ s.late θ := by
  obtain ⟨t, b, ht, -, hperm, hcases⟩ := respond_cases h
  have hpq : undue θ b = undue θ s.resp.pq := by
    rw [undue, undue, hperm.countP_eq, List.countP_cons_of_neg (by simpa using ht.trans_lt hθ)]
  have hmem : ∀ e : ℕ × Response, e.2.2 ≠ r.2 → (e ∈ b ↔ e ∈ s.resp.pq) := by
    intro e he
    rw [hperm.mem_iff, List.mem_cons, or_iff_right]
    rintro rfl
    exact he rfl
  rcases hcases with ⟨hlookup, hmshr, hb⟩ | ⟨tags, hlookup, hmshr, hb⟩
  · have hwaiting : heldBack θ b (waiting s.mshr) = heldBack θ s.resp.pq (waiting s.mshr) := by
      refine heldBack_congr r.2 (fun x hx heq ↦ ?_) hmem
      exact Finmap.lookup_eq_none.mp hlookup (heq ▸ Merging.mem_of_mem_waiting hx)
    rw [late, late, hmshr, hb, hpq, hwaiting]
  · have hreleased : undue θ s'.resp.pq = undue θ b := by
      rw [undue, undue, hb.countP_eq, List.countP_append, List.countP_map,
        List.countP_eq_zero.mpr, zero_add]
      intro tag _
      simpa using hθ
    have hwaiting : heldBack θ s'.resp.pq (waiting (s.mshr.erase r.2)) =
        heldBack θ s.resp.pq (waiting (s.mshr.erase r.2)) := by
      refine heldBack_congr r.2 (fun x hx heq ↦ ?_) fun e he ↦ ?_
      · exact Finmap.notMem_erase_self (heq ▸ Merging.mem_of_mem_waiting hx)
      · rw [hb.mem_iff, List.mem_append, ← hmem e he, or_iff_right]
        rintro hreleased
        obtain ⟨tag, -, rfl⟩ := List.mem_map.mp hreleased
        exact he rfl
    have hfewer : heldBack θ s.resp.pq (waiting (s.mshr.erase r.2)) ≤
        heldBack θ s.resp.pq (waiting s.mshr) := by
      rw [Merging.waiting_eq_add_erase hlookup]
      exact Multiset.countP_le_of_le _ (Multiset.le_add_left _ _)
    rw [late, late, hmshr, hreleased, hpq, hwaiting]
    exact Nat.add_le_add_left hfewer _

/-- Everything is late that is not due. -/
theorem late_of_not_due (h : ∀ e ∈ s.resp.pq, θ ≤ e.1) : s.late θ = s.outstanding.card := by
  have hundue : undue θ s.resp.pq = s.resp.pq.length :=
    List.countP_eq_length.mpr fun e he ↦ decide_eq_true (h e he)
  have hheld : heldBack θ s.resp.pq (waiting s.mshr) = (waiting s.mshr).card :=
    Multiset.countP_eq_card.mpr fun _ _ e he _ ↦ h e he
  rw [late, hundue, hheld, outstanding, Merging.State.outstanding, Multiset.card_add]
  exact congrArg (· + _) (List.length_map _).symm

/-- Nothing is late that is not late in the bucket. -/
theorem exists_of_late_ne_zero (hcovered : s.toState.Covered) (h : s.late θ ≠ 0) :
    ∃ e ∈ s.resp.pq, θ ≤ e.1 := by
  by_contra hne
  push Not at hne
  apply h
  have hundue : undue θ s.resp.pq = 0 :=
    List.countP_eq_zero.mpr fun e he ↦ by simpa using hne e he
  have hheld : heldBack θ s.resp.pq (waiting s.mshr) = 0 := by
    refine Multiset.countP_eq_zero.mpr fun r hr hback ↦ ?_
    obtain ⟨tag, htag⟩ := hcovered _ (Merging.mem_of_mem_waiting hr)
    obtain ⟨e, he, heq⟩ := List.mem_map.mp (Multiset.mem_coe.mp htag)
    exact absurd (hback e he (by rw [heq])) (hne e he).not_ge
  rw [late, hundue, hheld]

/-! ## The invariant -/

/-- The state of a side at the beginning of a cycle, for a clock period and a highest latency of so
many periods. -/
structure Timely (c W now : ℕ) (s : Side) : Prop where
  covered : s.toState.Covered
  due : ∀ e ∈ s.resp.pq, e.1 + c ≤ now + W * c
  late : ∀ θ, now ≤ θ → s.late θ ≠ 0 → c * s.late θ + θ ≤ now + W * c
  few : s.outstanding.card ≤ W

theorem Timely.init (c W now : ℕ) : Timely c W now Side.init where
  covered := Merging.State.covered_empty
  due _ he := absurd he List.not_mem_nil
  late _ _ h := absurd rfl h
  few := Nat.zero_le W

/-- What an answer leaves. -/
private theorem Answers.spec (h : Answers now s sent s') :
    (s.toState.Covered → s'.toState.Covered) ∧
      s.outstanding = (sent.toList : Multiset Response) + s'.outstanding ∧
      (∀ θ, now < θ → s'.late θ ≤ s.late θ) ∧
      ∀ e ∈ s'.resp.pq, e ∈ s.resp.pq ∨ e.1 = now := by
  cases h with
  | nothing => exact ⟨id, (zero_add _).symm, fun _ _ ↦ le_rfl, fun _ he ↦ .inl he⟩
  | sent r s' pick h =>
    obtain ⟨hmem, hstate⟩ := toState_respond h
    refine ⟨fun hs ↦ hstate ▸ hs.respond r, ?_, fun θ hθ ↦ late_respond h hθ, fun e he ↦ ?_⟩
    · rw [outstanding, outstanding, hstate, Merging.State.outstanding_respond hmem]
      exact (Multiset.singleton_add _ _).symm
    · obtain ⟨t, b, -, -, hperm, ⟨-, -, hb⟩ | ⟨tags, -, -, hb⟩⟩ := respond_cases h
      · rw [hb] at he
        exact .inl (hperm.mem_iff.mpr (List.mem_cons_of_mem _ he))
      · rcases List.mem_append.mp (hb.mem_iff.mp he) with hreleased | he
        · obtain ⟨tag, -, rfl⟩ := List.mem_map.mp hreleased
          exact .inr rfl
        · exact .inl (hperm.mem_iff.mpr (List.mem_cons_of_mem _ he))

/-- What a request leaves. -/
private theorem Takes.spec (h : Takes now limit s asked s') :
    (s.toState.Covered → s'.toState.Covered) ∧
      s'.outstanding = (asked.toList : Multiset Response) + s.outstanding ∧
      (∀ θ, s'.late θ ≤ s.late θ + 1) ∧
      ∀ e ∈ s'.resp.pq, e ∈ s.resp.pq ∨ (now ≤ e.1 ∧ e.1 ≤ now + limit) := by
  cases h with
  | nothing => exact ⟨id, (zero_add _).symm, fun _ ↦ Nat.le_succ _, fun _ he ↦ .inl he⟩
  | merged tag addr tags h =>
    refine ⟨fun hs ↦ toState_merge h ▸ hs.request tag addr, ?_, late_merge h,
      fun _ he ↦ .inl he⟩
    rw [outstanding, toState_merge h, Merging.State.outstanding_request]
    exact (Multiset.singleton_add _ _).symm
  | launched tag addr latency h hlatency =>
    have hstate : (s.launch now tag addr latency).toState = s.toState.request tag addr :=
      toState_launch h
    refine ⟨fun hs ↦ hstate ▸ hs.request tag addr, ?_, late_launch h, fun e he ↦ ?_⟩
    · rw [outstanding, hstate, Merging.State.outstanding_request]
      exact (Multiset.singleton_add _ _).symm
    · rcases List.mem_cons.mp he with rfl | he
      · exact .inr ⟨Nat.le_add_right _ _, Nat.add_le_add_left hlatency now⟩
      · exact .inl he

/-- The number of requests grows only in a cycle in which nothing is due. -/
private theorem Answers.few (hW : 0 < W) (hs : Timely c W now s) (h : Answers now s sent s') :
    s'.outstanding.card + 1 ≤ W := by
  cases h with
  | nothing hdue =>
    rcases Nat.eq_zero_or_pos s.outstanding.card with hzero | hpos
    · rw [hzero]
      exact hW
    · have hlate : s.late (now + 1) = s.outstanding.card := late_of_not_due hdue
      have hbound := hs.late (now + 1) (Nat.le_succ now) (by omega)
      rw [hlate] at hbound
      have hlt : c * s.outstanding.card < c * W := by
        rw [Nat.mul_comm c W]
        omega
      exact lt_of_mul_lt_mul_left hlt (Nat.zero_le c)
  | sent r s' pick h =>
    have hspec := congrArg Multiset.card (Answers.spec (.sent r s' pick h)).2.1
    rw [Multiset.card_add, Option.toList_some, Multiset.coe_card, List.length_singleton] at hspec
    have hfew := hs.few
    omega

/-- **Every cycle keeps the requests few and in time.** -/
theorem Timely.turn (hW : 0 < W) (hs : Timely c W now s) (h : Turn now (W * c) s sent asked s') :
    Timely c W (now + c) s' := by
  obtain ⟨s₁, hanswers, htakes⟩ := h
  obtain ⟨hcovered, -, hlate, hmem⟩ := hanswers.spec
  obtain ⟨hcovered', houtstanding, hlate', hmem'⟩ := htakes.spec
  have hdue : ∀ e ∈ s'.resp.pq, e.1 + c ≤ now + c + W * c := by
    intro e he
    rcases hmem' e he with he | ⟨-, hle⟩
    · rcases hmem e he with he | heq
      · exact (hs.due e he).trans (by omega)
      · omega
    · omega
  have hcovered₁ := hcovered' (hcovered hs.covered)
  refine ⟨hcovered₁, hdue, fun θ hθ hne ↦ ?_, ?_⟩
  · obtain ⟨e, he, hle⟩ := exists_of_late_ne_zero hcovered₁ hne
    have htop := hdue e he
    rcases Nat.eq_zero_or_pos c with rfl | hc
    · omega
    have hstep : s'.late θ ≤ s.late θ + 1 :=
      (hlate' θ).trans (Nat.add_le_add_right (hlate θ (by omega)) 1)
    have hmul : c * s'.late θ ≤ c * s.late θ + c := by
      rw [← Nat.mul_succ]
      exact Nat.mul_le_mul_left c hstep
    rcases Nat.eq_zero_or_pos (s.late θ) with hzero | hpos
    · rw [hzero, Nat.mul_zero] at hmul
      omega
    · have hbound := hs.late θ (by omega) hpos.ne'
      omega
  · have hcard := congrArg Multiset.card houtstanding
    rw [Multiset.card_add, Multiset.coe_card] at hcard
    have hle : asked.toList.length ≤ 1 := Option.length_toList_le
    have hfew := hanswers.few hW hs
    omega

/-! ## How long a request waits -/

/-- How many entries are due by a time. -/
def dueBy (t : ℕ) (s : Side) : ℕ := s.resp.pq.countP fun e ↦ e.1 ≤ t

theorem dueBy_le (hs : Timely c W now s) (t : ℕ) : s.dueBy t ≤ W := by
  refine le_trans ?_ hs.few
  rw [outstanding, Merging.State.outstanding, Multiset.card_add]
  refine List.countP_le_length.trans (le_trans ?_ (Nat.le_add_right _ _))
  have hlength : (s.resp.pq.map Prod.snd).length = s.resp.pq.length := List.length_map Prod.snd
  exact hlength.ge

/-- A bound on the number of cycles until an entry that is due at this time is answered: until it is
due, and then as many as there are entries to answer first. -/
def wait (c W now t : ℕ) (s : Side) : ℕ :=
  if t < now then s.dueBy t else W + 1 + (t - now) / c

/-- An entry that is due later comes nearer. -/
private theorem wait_of_le (hc : 0 < c) (hs' : Timely c W (now + c) s') (ht : now ≤ t) :
    wait c W (now + c) t s' < wait c W now t s := by
  rw [wait, wait, if_neg ht.not_gt]
  split_ifs with hlt
  · exact (Nat.lt_succ_of_le (dueBy_le hs' t)).trans_le (Nat.le_add_right _ _)
  · have hdiv := Nat.div_eq_sub_div hc (show c ≤ t - now by omega)
    rw [Nat.sub_sub] at hdiv
    omega

/-- **An entry is answered, or its wait gets shorter.** -/
theorem wait_turn (hc : 0 < c) (hW : 0 < W) (hs : Timely c W now s)
    (h : Turn now (W * c) s sent asked s') (he : (t, r) ∈ s.resp.pq) :
    sent = some r ∨ (t, r) ∈ s'.resp.pq ∧ wait c W (now + c) t s' < wait c W now t s := by
  have hs' := hs.turn hW h
  obtain ⟨s₁, hanswers, htakes⟩ := h
  have hkeep : (t, r) ∈ s₁.resp.pq → (t, r) ∈ s'.resp.pq := by
    intro he
    cases htakes with
    | nothing => exact he
    | merged => exact he
    | launched => exact List.mem_cons_of_mem _ he
  cases hanswers with
  | nothing hdue => exact .inr ⟨hkeep he, wait_of_le hc hs' (hdue _ he).le⟩
  | sent r₁ s₁ pick hrespond =>
    obtain ⟨t₁, b, ht₁, hfirst, hperm, hcases⟩ := respond_cases hrespond
    have hb : ∀ e ∈ b, e ∈ s₁.resp.pq := by
      intro e he
      rcases hcases with ⟨-, -, hpq⟩ | ⟨tags, -, -, hpq⟩
      · exact hpq ▸ he
      · exact hpq.mem_iff.mpr (List.mem_append_right _ he)
    rcases List.mem_cons.mp (hperm.mem_iff.mp he) with heq | he'
    · exact .inl (congrArg some (Prod.mk.inj heq).2.symm)
    refine .inr ⟨hkeep (hb _ he'), ?_⟩
    rcases Nat.lt_or_ge t now with hlt | hge
    · -- what is added is due now or later
      have hadded : s₁.dueBy t = b.countP fun e ↦ e.1 ≤ t := by
        rcases hcases with ⟨-, -, hpq⟩ | ⟨tags, -, -, hpq⟩
        · rw [dueBy, hpq]
        · rw [dueBy, hpq.countP_eq, List.countP_append, List.countP_map,
            List.countP_eq_zero.mpr, zero_add]
          intro tag _
          simpa using hlt
      have hlaunched : s'.dueBy t = s₁.dueBy t := by
        cases htakes with
        | nothing => rfl
        | merged => rfl
        | launched tag addr latency =>
          exact List.countP_cons_of_neg (by simpa using hlt.trans_le (Nat.le_add_right _ _))
      have hone : s.dueBy t = b.countP (fun e ↦ e.1 ≤ t) + 1 := by
        rw [dueBy, hperm.countP_eq, List.countP_cons_of_pos]
        exact decide_eq_true (hfirst _ he)
      rw [wait, wait, if_pos hlt, if_pos (by omega), hlaunched, hadded, hone]
      exact Nat.lt_succ_self _
    · exact wait_of_le hc hs' hge

theorem wait_pos (he : (t, r) ∈ s.resp.pq) : 0 < wait c W now t s := by
  rw [wait]
  split_ifs
  · exact List.countP_pos_iff.mpr ⟨_, he, decide_eq_true le_rfl⟩
  · exact (Nat.succ_pos W).trans_le (Nat.le_add_right _ _)

/-- The request is to be answered within so many cycles. -/
inductive Within (c W now k : ℕ) (s : Side) (r : Response) : Prop
  | pending (t : ℕ) (he : (t, r) ∈ s.resp.pq) (hk : wait c W now t s ≤ k)
  | waiting (t : ℕ) (tag : BitVec 32) (hr : r ∈ waiting s.mshr) (he : (t, tag, r.2) ∈ s.resp.pq)
      (hk : wait c W now t s + W ≤ k)

theorem Within.pos {k : ℕ} (h : Within c W now k s r) : 0 < k := by
  cases h with
  | pending t he hk => exact (wait_pos he).trans_le hk
  | waiting t tag hr he hk => exact (wait_pos he).trans_le ((Nat.le_add_right _ _).trans hk)

/-- No entry waits longer than twice the highest latency. -/
theorem Timely.wait_le (hc : 0 < c) (hs : Timely c W now s) (he : (t, r) ∈ s.resp.pq) :
    wait c W now t s ≤ 2 * W := by
  rw [wait]
  split_ifs with hlt
  · have := dueBy_le hs t
    omega
  · have hdue : t + c ≤ now + W * c := hs.due _ he
    have hdiv : (t - now) / c < W := by
      rw [Nat.div_lt_iff_lt_mul hc]
      omega
    omega

/-- Every request is, as long as the side is in time. -/
theorem Timely.within (hc : 0 < c) (hs : Timely c W now s) (hr : r ∈ s.outstanding) :
    Within c W now (3 * W) s r := by
  rcases Multiset.mem_add.mp hr with hr | hr
  · obtain ⟨e, he, rfl⟩ := List.mem_map.mp (Multiset.mem_coe.mp hr)
    exact .pending e.1 he ((hs.wait_le hc he).trans (by omega))
  · obtain ⟨tag, htag⟩ := hs.covered _ (Merging.mem_of_mem_waiting hr)
    obtain ⟨e, he, heq⟩ := List.mem_map.mp (Multiset.mem_coe.mp htag)
    refine .waiting e.1 tag hr (heq ▸ he) ?_
    have := hs.wait_le hc he
    omega

/-- What waits is moved by an answer for its address only. -/
private theorem Answers.waiting (h : Answers now s sent s') (hr : r ∈ waiting s.mshr) :
    (now, r) ∈ s'.resp.pq ∨
      r ∈ waiting s'.mshr ∧ ∀ r₁, sent = some r₁ → r₁.2 ≠ r.2 := by
  cases h with
  | nothing => exact .inr ⟨hr, fun _ h ↦ by cases h⟩
  | sent r₁ s' pick h =>
    obtain ⟨t, b, -, -, -, ⟨hlookup, hmshr, -⟩ | ⟨tags, hlookup, hmshr, hb⟩⟩ := respond_cases h
    · refine .inr ⟨hmshr ▸ hr, ?_⟩
      rintro _ ⟨⟩ heq
      exact Finmap.lookup_eq_none.mp hlookup (heq ▸ Merging.mem_of_mem_waiting hr)
    · rw [Merging.waiting_eq_add_erase hlookup] at hr
      rcases Multiset.mem_add.mp hr with hr | hr
      · obtain ⟨tag, htag, rfl⟩ := List.mem_map.mp (Multiset.mem_coe.mp hr)
        exact .inl (hb.mem_iff.mpr (List.mem_append_left _ (List.mem_map_of_mem htag)))
      · refine .inr ⟨hmshr ▸ hr, ?_⟩
        rintro _ ⟨⟩ heq
        exact Finmap.notMem_erase_self (heq ▸ Merging.mem_of_mem_waiting hr)

private theorem Takes.mem (h : Takes now limit s asked s') :
    (∀ e ∈ s.resp.pq, e ∈ s'.resp.pq) ∧ ∀ r ∈ waiting s.mshr, r ∈ waiting s'.mshr := by
  cases h with
  | nothing => exact ⟨fun _ h ↦ h, fun _ h ↦ h⟩
  | merged tag addr tags h =>
    refine ⟨fun _ h ↦ h, fun r hr ↦ ?_⟩
    rw [merge, Merging.waiting_insert_concat h]
    exact Multiset.mem_cons_of_mem hr
  | launched tag addr latency h =>
    refine ⟨fun _ h ↦ List.mem_cons_of_mem _ h, fun r hr ↦ ?_⟩
    rw [launch, Merging.waiting_insert (Finmap.lookup_eq_none.mp h)]
    exact Multiset.mem_add.mpr (.inr hr)

/-- **A request is answered, or it is to be answered within fewer cycles.** -/
theorem Within.turn {k : ℕ} (hc : 0 < c) (hW : 0 < W) (hs : Timely c W now s)
    (hturn : Turn now (W * c) s sent asked s') (h : Within c W now k s r) :
    sent = some r ∨ ∃ k', k = k' + 1 ∧ Within c W (now + c) k' s' r := by
  have hs' := hs.turn hW hturn
  have hpos : ∀ {n k : ℕ}, n < k → ∃ k', k = k' + 1 ∧ n ≤ k' :=
    fun h ↦ ⟨_, (Nat.sub_add_cancel (Nat.one_le_of_lt h)).symm, Nat.le_sub_one_of_lt h⟩
  cases h with
  | pending t he hk =>
    rcases wait_turn hc hW hs hturn he with hsent | ⟨he', hlt⟩
    · exact .inl hsent
    · obtain ⟨k', rfl, hk'⟩ := hpos (hlt.trans_le hk)
      exact .inr ⟨k', rfl, .pending t he' hk'⟩
  | waiting t tag hr he hk =>
    obtain ⟨s₁, hanswers, htakes⟩ := hturn
    rcases hanswers.waiting hr with hreleased | ⟨hr₁, hother⟩
    · -- it is released, and now due before anything that is asked later
      have hwait : wait c W (now + c) now s' ≤ W := by
        rw [wait, if_pos (Nat.lt_add_of_pos_right hc)]
        exact dueBy_le hs' now
      have hk₁ : 0 < wait c W now t s := wait_pos he
      obtain ⟨k', rfl, hk'⟩ := hpos (show W < k by omega)
      exact .inr ⟨k', rfl, .pending now (htakes.mem.1 _ hreleased) (hwait.trans hk')⟩
    · rcases wait_turn hc hW hs ⟨s₁, hanswers, htakes⟩ he with hsent | ⟨he', hlt⟩
      · exact absurd (rfl : (tag, r.2).2 = r.2) (hother (tag, r.2) hsent)
      · obtain ⟨k', rfl, hk'⟩ := hpos (show wait c W (now + c) t s' + W < k by omega)
        exact .inr ⟨k', rfl, .waiting t tag (htakes.mem.2 r hr₁) he' hk'⟩

/-- Cycle after cycle, with a record of what is sent. -/
theorem exists_sent {s : ℕ → Side} {sentAt : ℕ → Option Response → Prop} {t₀ n k b : ℕ}
    (hc : 0 < c) (hW : 0 < W)
    (hturn : ∀ j < n, ∃ sent asked,
      Turn (t₀ + c * j) (W * c) (s j) sent asked (s (j + 1)) ∧ sentAt j sent)
    (hs : Timely c W (t₀ + c * k) (s k)) (h : Within c W (t₀ + c * k) b (s k) r)
    (hn : k + b ≤ n) : ∃ j, k ≤ j ∧ j < k + b ∧ sentAt j (some r) := by
  induction b generalizing k with
  | zero => exact absurd h.pos (lt_irrefl 0)
  | succ b ih =>
    obtain ⟨sent, asked, hturn', hsent⟩ := hturn k (by omega)
    rcases h.turn hc hW hs hturn' with rfl | ⟨k', hk', hwithin⟩
    · exact ⟨k, le_rfl, by omega, hsent⟩
    · obtain rfl : b = k' := Nat.succ.inj hk'
      have hnext : t₀ + c * (k + 1) = t₀ + c * k + c := by rw [Nat.mul_succ, Nat.add_assoc]
      obtain ⟨j, hkj, hjb, hsent'⟩ := ih (hnext ▸ hs.turn hW hturn') (hnext ▸ hwithin) (by omega)
      exact ⟨j, by omega, by omega, hsent'⟩

/-- The side is in time throughout a run. -/
theorem timely_run {s : ℕ → Side} {t₀ n : ℕ} (hW : 0 < W) (h₀ : s 0 = init)
    (hturn : ∀ j < n, ∃ sent asked, Turn (t₀ + c * j) (W * c) (s j) sent asked (s (j + 1))) {k : ℕ}
    (hk : k ≤ n) : Timely c W (t₀ + c * k) (s k) := by
  induction k with
  | zero => exact h₀ ▸ Timely.init c W _
  | succ k ih =>
    obtain ⟨sent, asked, hturn'⟩ := hturn k hk
    rw [Nat.mul_succ, ← Nat.add_assoc]
    exact (ih (by omega)).turn hW hturn'

/-- What is asked is not answered yet. -/
theorem Turn.mem_outstanding (h : Turn now limit s sent (some r) s') : r ∈ s'.outstanding := by
  obtain ⟨s₁, -, htakes⟩ := h
  rw [htakes.spec.2.1]
  exact Multiset.mem_add.mpr (.inl (Multiset.mem_singleton_self r))

/-- An entry has the address of what is asked. -/
theorem Turn.exists_entry (hs : s.toState.Covered) (h : Turn now limit s sent (some r) s') :
    ∃ t tag, (t, tag, r.2) ∈ s'.resp.pq := by
  obtain ⟨s₁, hanswers, htakes⟩ := h
  have hcovered := htakes.spec.1 (hanswers.spec.1 hs)
  have haddr : r.2 ∈ s'.mshr := by
    cases htakes with
    | merged tag addr tags => exact Finmap.mem_insert.mpr (.inl rfl)
    | launched tag addr latency => exact Finmap.mem_insert.mpr (.inl rfl)
  obtain ⟨tag, htag⟩ := hcovered _ haddr
  obtain ⟨e, he, heq⟩ := List.mem_map.mp (Multiset.mem_coe.mp htag)
  exact ⟨e.1, tag, heq ▸ he⟩

/-- **What is asked is answered within three times the highest latency.** -/
theorem exists_answer {s : ℕ → Side} {sentAt : ℕ → Option Response → Prop}
    {askedAt : ℕ → Option Response} {t₀ n k : ℕ} (hc : 0 < c) (hW : 0 < W) (h₀ : s 0 = init)
    (hturn : ∀ j < n, ∃ sent,
      Turn (t₀ + c * j) (W * c) (s j) sent (askedAt j) (s (j + 1)) ∧ sentAt j sent)
    (hn : k + 3 * W < n) (hr : askedAt k = some r) :
    ∃ j, k < j ∧ j ≤ k + 3 * W ∧ sentAt j (some r) := by
  have hturn' : ∀ j < n, ∃ sent asked,
      Turn (t₀ + c * j) (W * c) (s j) sent asked (s (j + 1)) ∧ sentAt j sent := fun j hj ↦ by
    obtain ⟨sent, h⟩ := hturn j hj
    exact ⟨sent, askedAt j, h⟩
  have htimely : Timely c W (t₀ + c * (k + 1)) (s (k + 1)) :=
    timely_run hW h₀ (fun j hj ↦ by
      obtain ⟨sent, asked, h, -⟩ := hturn' j hj
      exact ⟨sent, asked, h⟩) (show k + 1 ≤ n by omega)
  obtain ⟨sent, hk, -⟩ := hturn k (by omega)
  rw [hr] at hk
  obtain ⟨j, hkj, hj, hsent⟩ := exists_sent hc hW hturn' htimely
    (htimely.within hc hk.mem_outstanding) (by omega)
  exact ⟨j, hkj, by omega, hsent⟩

end Side

namespace Memory

/-! ## The latencies -/

theorem lookL2_latency (addr : Word) (latency : ℕ) (m : Memory) :
    (m.lookL2 addr latency).1 ≤ latency + 100 := by
  rw [lookL2]
  split
  · exact Nat.le_add_right _ _
  · exact le_rfl

theorem iLatency_le (addr : Word) (m : Memory) : (m.iLatency addr).1 ≤ 111 := by
  rw [iLatency]
  split
  · exact (by decide : 2 ≤ 111)
  · exact lookL2_latency _ _ _

theorem dLatency_le (op : MemOp) (addr : Word) (m : Memory) : (m.dLatency op addr).1 ≤ 112 := by
  rw [dLatency]
  split
  · exact (by decide : 3 ≤ 112)
  · exact lookL2_latency _ _ _

/-! ## The two ports -/

/-- What a port shows of a response that is sent: its tag, and the word of its address. -/
def Shows {width : ℕ} (read : Word → Option (BitVec width)) (out : Answer width) :
    Option Response → Prop
  | none => out = none
  | some r => ∃ data, read r.2 = some data ∧ out = some (r.1, data)

theorem answer_turn {width : ℕ} {read : Word → Option (BitVec width)} {now pick : ℕ} {s s' : Side}
    {out : Answer width} (h : answer read now pick s = some (out, s')) :
    ∃ sent, s.Answers now sent s' ∧ Shows read out sent := by
  rw [answer] at h
  split at h
  · next hnone =>
    obtain ⟨rfl, rfl⟩ := Prod.mk.inj (Option.some.inj h)
    rw [Side.respond, Option.map_eq_none_iff] at hnone
    exact ⟨none, .nothing (DelayBucket.get_eq_none_iff.mp hnone), rfl⟩
  · next r hr =>
    obtain ⟨data, hdata, h⟩ := Option.map_eq_some_iff.mp h
    obtain ⟨rfl, rfl⟩ := Prod.mk.inj h
    exact ⟨some r.1, .sent r.1 r.2 pick hr, data, hdata, rfl⟩

/-- What a request asks for. -/
def asks (op : MemOp) (tag : BitVec 32) (addr : Word) : Option Response :=
  if op = .none then none else some (tag, addr)

theorem iRequest_turn {now limit : ℕ} {req : InstRequest} {m m' : Memory} (hlimit : 111000 ≤ limit)
    (h : iRequest now req m = some m') :
    m.i.Takes now limit (asks req.op req.tagin req.addr) m'.i := by
  rcases iRequest_cases h with ⟨hnone, rfl⟩ | ⟨hop, tags, hlookup, rfl⟩ | ⟨hop, hlookup, rfl⟩
  · rw [asks, if_pos hnone]
    exact .nothing
  · rw [asks, if_neg hop]
    exact .merged _ _ _ hlookup
  · rw [asks, if_neg hop]
    refine .launched _ _ _ hlookup ?_
    have := iLatency_le req.addr m
    omega

theorem dRequest_turn {now limit : ℕ} {req : DataRequest} {mem mem' : Mem} {m m' : Memory}
    (hlimit : 112000 ≤ limit) (h : dRequest now req mem m = some (mem', m')) :
    m.d.Takes now limit (asks req.op req.tagin req.addr) m'.d := by
  rcases dRequest_cases h with ⟨hnone, rfl⟩ | ⟨hop, tags, hlookup, rfl⟩ | ⟨hop, hlookup, rfl⟩
  · rw [asks, if_pos hnone]
    exact .nothing
  · rw [asks, if_neg hop]
    exact .merged _ _ _ hlookup
  · rw [asks, if_neg hop]
    refine .launched _ _ _ hlookup ?_
    have := dLatency_le req.op req.addr m
    omega

/-- An activation with one port on either side: each side takes a turn, and its port shows what it
sends. -/
structure Turns (limit : ℕ) (inp : MemoryInput 1 1) (mem : Mem) (m : Memory) (r : MemoryResult)
    (iSent dSent : Option Response) : Prop where
  i : m.i.Turn inp.now limit iSent (asks (inp.iReq 0).op (inp.iReq 0).tagin (inp.iReq 0).addr)
    r.memory.i
  d : m.d.Turn inp.now limit dSent (asks (inp.dReq 0).op (inp.dReq 0).tagin (inp.dReq 0).addr)
    r.memory.d
  iOut : ∃ out, r.iOut = [out] ∧ Shows (memIRead mem) out iSent
  dOut : ∃ out, r.dOut = [out] ∧ Shows (memDRead mem) out dSent

theorem work_turns {limit : ℕ} {inp : MemoryInput 1 1} {mem : Mem} {m : Memory} {r : MemoryResult}
    (hlimit : 112000 ≤ limit) (hreset : inp.reset = false) (h : work inp mem m = some r) :
    ∃ iSent dSent, Turns limit inp mem m r iSent dSent := by
  rcases work_cases h with ⟨hreset', -⟩ | ⟨-, i, d, m₁, hi, hd, hm₁, hr⟩
  · exact absurd (hreset.symm.trans hreset') Bool.noConfusion
  obtain ⟨⟨iOut, i₁⟩, hianswer, hi⟩ := Option.bind_eq_some_iff.mp hi
  obtain ⟨⟨iOuts, i₂⟩, hinil, hi⟩ := Option.map_eq_some_iff.mp hi
  obtain ⟨rfl, rfl⟩ := Prod.mk.inj (Option.some.inj hinil)
  obtain ⟨hiOut, rfl⟩ := Prod.mk.inj hi
  obtain ⟨⟨dOut, d₁⟩, hdanswer, hd⟩ := Option.bind_eq_some_iff.mp hd
  obtain ⟨⟨dOuts, d₂⟩, hdnil, hd⟩ := Option.map_eq_some_iff.mp hd
  obtain ⟨rfl, rfl⟩ := Prod.mk.inj (Option.some.inj hdnil)
  obtain ⟨hdOut, rfl⟩ := Prod.mk.inj hd
  obtain ⟨m₂, hirequest, hm₁⟩ := Option.bind_eq_some_iff.mp hm₁
  obtain rfl := Option.some.inj hm₁
  obtain ⟨⟨mem', m'⟩, hdrequest, hr⟩ := Option.bind_eq_some_iff.mp hr
  obtain ⟨-, hm'⟩ := Prod.mk.inj (Option.some.inj hr)
  obtain ⟨iSent, hianswers, hishows⟩ := answer_turn hianswer
  obtain ⟨dSent, hdanswers, hdshows⟩ := answer_turn hdanswer
  obtain ⟨hd₂, -⟩ := iRequest_spec hirequest
  obtain ⟨hi₂, -⟩ := dRequest_spec hdrequest
  have hitakes := iRequest_turn ((by decide : 111000 ≤ 112000).trans hlimit) hirequest
  have hdtakes := dRequest_turn hlimit hdrequest
  rw [hd₂] at hdtakes
  rw [← hi₂] at hitakes
  subst hm'
  exact ⟨iSent, dSent, ⟨i₁, hianswers, hitakes⟩, ⟨d₁, hdanswers, hdtakes⟩,
    ⟨iOut, hiOut.symm, hishows⟩, ⟨dOut, hdOut.symm, hdshows⟩⟩

/-! ## Runs -/

variable {c W : ℕ}

/-- The requests of a cycle are answered in the cycles after it, up to a limit, with the words that
are in the guest memory then. -/
structure AnsweredBy (mem : Mem) (inputs : ℕ → MemoryInput 1 1) (k b : ℕ) : Prop where
  i : ((inputs k).iReq 0).op ≠ .none → ∃ j t r data, k < j ∧ j ≤ k + b ∧
    Traffic.run mem inputs j = some t ∧ work (inputs j) t.mem t.memory = some r ∧
      memIRead t.mem ((inputs k).iReq 0).addr = some data ∧
        r.iOut = [some (((inputs k).iReq 0).tagin, data)]
  d : ((inputs k).dReq 0).op ≠ .none → ∃ j t r data, k < j ∧ j ≤ k + b ∧
    Traffic.run mem inputs j = some t ∧ work (inputs j) t.mem t.memory = some r ∧
      memDRead t.mem ((inputs k).dReq 0).addr = some data ∧
        r.dOut = [some (((inputs k).dReq 0).tagin, data)]

variable {mem : Mem} {inputs : ℕ → MemoryInput 1 1} {n : ℕ}

/-- Every cycle of a run was an activation of `Memory::work`. -/
private theorem exists_work {t : Traffic} (h : Traffic.run mem inputs n = some t) :
    ∀ j < n, ∃ tj r tj', Traffic.run mem inputs j = some tj ∧
      work (inputs j) tj.mem tj.memory = some r ∧ Traffic.run mem inputs (j + 1) = some tj' ∧
        tj'.memory = r.memory := by
  induction n generalizing t with
  | zero => exact fun j hj ↦ absurd hj (Nat.not_lt_zero j)
  | succ n ih =>
    obtain ⟨tn, htn, hcycle⟩ := Option.bind_eq_some_iff.mp h
    intro j hj
    rcases Nat.lt_succ_iff_lt_or_eq.mp hj with hlt | rfl
    · exact ih htn j hlt
    · obtain ⟨r, hr, rfl⟩ := Option.map_eq_some_iff.mp hcycle
      exact ⟨tn, r, _, htn, hr, h, rfl⟩

/-- A side of `Memory` in a run. -/
private def sideAt (mem : Mem) (inputs : ℕ → MemoryInput 1 1) (side : Memory → Side) (j : ℕ) :
    Side := (Traffic.run mem inputs j).elim Side.init fun t ↦ side t.memory

/-- **Every request is answered in time.** In every run with one port on either side, a clock of any
period and `W` periods of 112 ns or more: no side ever has more than `W` requests to answer, and
each request is answered within `3 * W` cycles. -/
theorem run_answered (mem : Mem) (inputs : ℕ → MemoryInput 1 1) (c W t₀ : ℕ) {n : ℕ} (hc : 0 < c)
    (hW : 112000 ≤ W * c) (hnow : ∀ k, (inputs k).now = t₀ + c * k)
    (hreset : ∀ k, (inputs k).reset = false) {t : Traffic}
    (hrun : Traffic.run mem inputs n = some t) :
    t.memory.i.outstanding.card ≤ W ∧ t.memory.d.outstanding.card ≤ W ∧
      ∀ k, k + 3 * W < n → AnsweredBy mem inputs k (3 * W) := by
  have hpos : 0 < W := Nat.pos_of_mul_pos_right (by omega : 0 < W * c)
  have hi : ∀ j < n, ∃ sent,
      Side.Turn (t₀ + c * j) (W * c) (sideAt mem inputs Memory.i j) sent
        (asks ((inputs j).iReq 0).op ((inputs j).iReq 0).tagin ((inputs j).iReq 0).addr)
        (sideAt mem inputs Memory.i (j + 1)) ∧
      ∃ t r out, Traffic.run mem inputs j = some t ∧ work (inputs j) t.mem t.memory = some r ∧
        r.iOut = [out] ∧ Shows (memIRead t.mem) out sent := by
    intro j hj
    obtain ⟨t, r, t', ht, hr, ht', heq⟩ := exists_work hrun j hj
    obtain ⟨iSent, dSent, hturns⟩ := work_turns hW (hreset j) hr
    obtain ⟨out, hout, hshows⟩ := hturns.iOut
    refine ⟨iSent, ?_, t, r, out, ht, hr, hout, hshows⟩
    rw [sideAt, sideAt, ht, ht', Option.elim_some, Option.elim_some, heq, ← hnow j]
    exact hturns.i
  have hd : ∀ j < n, ∃ sent,
      Side.Turn (t₀ + c * j) (W * c) (sideAt mem inputs Memory.d j) sent
        (asks ((inputs j).dReq 0).op ((inputs j).dReq 0).tagin ((inputs j).dReq 0).addr)
        (sideAt mem inputs Memory.d (j + 1)) ∧
      ∃ t r out, Traffic.run mem inputs j = some t ∧ work (inputs j) t.mem t.memory = some r ∧
        r.dOut = [out] ∧ Shows (memDRead t.mem) out sent := by
    intro j hj
    obtain ⟨t, r, t', ht, hr, ht', heq⟩ := exists_work hrun j hj
    obtain ⟨iSent, dSent, hturns⟩ := work_turns hW (hreset j) hr
    obtain ⟨out, hout, hshows⟩ := hturns.dOut
    refine ⟨dSent, ?_, t, r, out, ht, hr, hout, hshows⟩
    rw [sideAt, sideAt, ht, ht', Option.elim_some, Option.elim_some, heq, ← hnow j]
    exact hturns.d
  have hfew : ∀ side : Memory → Side, side init = Side.init →
      (∀ j < n, ∃ sent asked, Side.Turn (t₀ + c * j) (W * c) (sideAt mem inputs side j) sent asked
        (sideAt mem inputs side (j + 1))) → (side t.memory).outstanding.card ≤ W := by
    intro side h₀ hturn
    have htimely := (Side.timely_run (s := sideAt mem inputs side) hpos h₀ hturn le_rfl).few
    rwa [sideAt, hrun, Option.elim_some] at htimely
  refine ⟨hfew Memory.i rfl ?_, hfew Memory.d rfl ?_, fun k hk ↦ ⟨fun hop ↦ ?_, fun hop ↦ ?_⟩⟩
  · intro j hj
    obtain ⟨sent, h, -⟩ := hi j hj
    exact ⟨sent, _, h⟩
  · intro j hj
    obtain ⟨sent, h, -⟩ := hd j hj
    exact ⟨sent, _, h⟩
  · obtain ⟨j, hkj, hj, t, r, out, ht, hr, hout, data, hdata, rfl⟩ :=
      Side.exists_answer hc hpos rfl hi hk (if_neg hop)
    exact ⟨j, t, r, data, hkj, hj, ht, hr, hdata, hout⟩
  · obtain ⟨j, hkj, hj, t, r, out, ht, hr, hout, data, hdata, rfl⟩ :=
      Side.exists_answer hc hpos rfl hd hk (if_neg hop)
    exact ⟨j, t, r, data, hkj, hj, ht, hr, hdata, hout⟩

/-- The clock of the simulation, and a word that is asked for in two cycles. -/
theorem run_answered_askedTwice : ∃ t, Traffic.run (fun _ ↦ 0) askedTwice 700 = some t ∧
    t.memory.i.outstanding.card ≤ 224 ∧ t.memory.d.outstanding.card ≤ 224 ∧
      ∀ k, k + 3 * 224 < 700 → AnsweredBy (fun _ ↦ 0) askedTwice k (3 * 224) := by
  obtain ⟨t, ht⟩ := Option.isSome_iff_exists.mp
    (by decide +kernel : (Traffic.run (fun _ ↦ 0) askedTwice 700).isSome = true)
  refine ⟨t, ht, run_answered _ askedTwice 500 224 0 (by decide) (by decide) (fun k ↦ ?_)
    (fun k ↦ ?_) ht⟩
  · rcases k with - | - | k <;> simp [askedTwice]
  · rcases k with - | - | k <;> rfl

end Memory

end Cse502
