import Mathlib.Logic.Function.Basic
import Mathlib.Tactic

/-!
# Calls and returns through a stack in memory

A machine keeps its return addresses in memory. A call moves the stack pointer and stores the
address to come back to where it then points; a return loads the word there and moves the stack
pointer back. The same memory takes all other stores, and in between the stack pointer may go
anywhere.

`View.matched_returns` says that in a well-nested sequence every return gets the address of its
own call and leaves the stack pointer that was before it. The induction is on the sequence, below
a stack of calls that are still open: as long as nothing is stored to their slots, each of them
has its address in memory.
-/

namespace CallStack

/-- What an event is to the stack. -/
inductive Kind
  | call | ret | plain
  deriving DecidableEq, Repr

/-- What is seen of the events of a machine: the stack pointer before and after, the store and the
load, the word that was loaded, and the address to come back to. -/
structure View (E A V : Type*) where
  kind : E → Kind
  before : E → A
  after : E → A
  stores : E → Option (A × V)
  loads : E → Option A
  word : E → V
  link : E → V

namespace View

variable {E A V : Type*} (v : View E A V)

/-- What the machine does for a call and for a return. -/
structure Sound (down up : A → A) (e : E) : Prop where
  call : v.kind e = .call → v.after e = down (v.before e) ∧ v.stores e = some (v.after e, v.link e)
  ret : v.kind e = .ret → v.after e = up (v.before e) ∧ v.loads e = some (v.before e) ∧
    v.stores e = none

/-- The event stores nothing where an open call has its address. -/
def Spares (stack : List E) (e : E) : Prop := ∀ s ∈ v.stores e, ∀ c ∈ stack, s.1 ≠ v.after c

/-- The sequence is well nested below the open calls of the stack: every return has a call to
match, and what ran in between has left the stack pointer as it was and the return addresses
alone. -/
def Nested : List E → List E → Prop
  | _, [] => True
  | stack, e :: es =>
    match v.kind e with
    | .call => v.Spares stack e ∧ Nested (e :: stack) es
    | .ret =>
      match stack with
      | [] => False
      | c :: stack => v.before e = v.after c ∧ Nested stack es
    | .plain => v.Spares stack e ∧ Nested stack es

instance decidableSpares [DecidableEq A] (stack : List E) (e : E) : Decidable (v.Spares stack e) :=
  inferInstanceAs (Decidable (∀ s ∈ v.stores e, ∀ c ∈ stack, s.1 ≠ v.after c))

instance decidableNested [DecidableEq A] : (stack es : List E) → Decidable (v.Nested stack es)
  | _, [] => isTrue trivial
  | stack, e :: es =>
    match hkind : v.kind e, stack with
    | .call, stack =>
      have := decidableNested (e :: stack) es
      decidable_of_iff (v.Spares stack e ∧ v.Nested (e :: stack) es) (by simp only [Nested, hkind])
    | .ret, [] => isFalse (by simp only [Nested, hkind, not_false_eq_true])
    | .ret, c :: stack =>
      have := decidableNested stack es
      decidable_of_iff (v.before e = v.after c ∧ v.Nested stack es) (by simp only [Nested, hkind])
    | .plain, stack =>
      have := decidableNested stack es
      decidable_of_iff (v.Spares stack e ∧ v.Nested stack es) (by simp only [Nested, hkind])

/-- Every return with its call, the open calls of the stack included. -/
def matched : List E → List E → List (E × E)
  | _, [] => []
  | stack, e :: es =>
    match v.kind e with
    | .call => matched (e :: stack) es
    | .ret =>
      match stack with
      | [] => matched [] es
      | c :: stack => (c, e) :: matched stack es
    | .plain => matched stack es

section Memory

variable [DecidableEq A]

/-- The latest stores after an event. -/
def remember (m : A → Option V) (e : E) : A → Option V :=
  match v.stores e with
  | some (a, w) => Function.update m a (some w)
  | none => m

/-- Every load gets the latest store to its address, if there is one. -/
def LoadsLatest : (A → Option V) → List E → Prop
  | _, [] => True
  | m, e :: es => (∀ a ∈ v.loads e, ∀ w ∈ m a, v.word e = w) ∧ LoadsLatest (v.remember m e) es

instance decidableLoadsLatest [DecidableEq V] :
    (m : A → Option V) → (es : List E) → Decidable (v.LoadsLatest m es)
  | _, [] => isTrue trivial
  | m, e :: es =>
    have := decidableLoadsLatest (v.remember m e) es
    inferInstanceAs (Decidable ((∀ a ∈ v.loads e, ∀ w ∈ m a, v.word e = w) ∧ _))

variable {v} {m : A → Option V} {stack es es' : List E} {e : E}

theorem remember_of_none (h : v.stores e = none) : v.remember m e = m := by
  rw [remember, h]

/-- The slots of the open calls keep their addresses. -/
theorem Spares.remember (h : v.Spares stack e) :
    ∀ c ∈ stack, v.remember m e (v.after c) = m (v.after c) := by
  intro c hc
  rw [View.remember]
  cases hstores : v.stores e with
  | none => rfl
  | some s => exact Function.update_of_ne (h s hstores c hc).symm _ _

theorem loadsLatest_append : v.LoadsLatest m (es ++ es') ↔
    v.LoadsLatest m es ∧ v.LoadsLatest (es.foldl v.remember m) es' := by
  induction es generalizing m with
  | nil => exact (iff_of_eq (true_and _)).symm
  | cons e es ih =>
    rw [List.cons_append, LoadsLatest, LoadsLatest, ih, and_assoc]
    rfl

/-- An open call has its address in memory. -/
structure Open (v : View E A V) (down : A → A) (m : A → Option V) (c : E) : Prop where
  after : v.after c = down (v.before c)
  slot : m (v.after c) = some (v.link c)

theorem Spares.opened {down : A → A} (h : v.Spares stack e) (hopen : ∀ c ∈ stack, v.Open down m c) :
    ∀ c ∈ stack, v.Open down (v.remember m e) c := by
  intro c hc
  exact ⟨(hopen c hc).after, (h.remember c hc).trans (hopen c hc).slot⟩

/-- **Calls and returns nest.** -/
theorem matched_returns {down up : A → A} (hup : ∀ a, up (down a) = a)
    (hsound : ∀ e ∈ es, v.Sound down up e) (hopen : ∀ c ∈ stack, v.Open down m c)
    (hnested : v.Nested stack es) (hloads : v.LoadsLatest m es) :
    ∀ p ∈ v.matched stack es, v.word p.2 = v.link p.1 ∧ v.after p.2 = v.before p.1 := by
  -- along the events: every call that is open still has its address in memory
  induction es generalizing stack m with
  | nil => exact List.forall_mem_nil _
  | cons e es ih =>
    obtain ⟨hsound, hrest⟩ := List.forall_mem_cons.mp hsound
    obtain ⟨hload, hloads⟩ := hloads
    cases hkind : v.kind e with
    | call =>
      simp only [Nested, matched, hkind] at hnested ⊢
      obtain ⟨hspares, hnested⟩ := hnested
      obtain ⟨hafter, hstores⟩ := hsound.call hkind
      refine ih hrest (List.forall_mem_cons.mpr ⟨⟨hafter, ?_⟩, hspares.opened hopen⟩) hnested hloads
      rw [View.remember, hstores]
      exact Function.update_self _ _ _
    | ret =>
      cases stack with
      | nil =>
        simp only [Nested, hkind] at hnested
      | cons c stack =>
        simp only [Nested, matched, hkind] at hnested ⊢
        obtain ⟨hbalanced, hnested⟩ := hnested
        obtain ⟨hafter, hloaded, hstores⟩ := hsound.ret hkind
        obtain ⟨hc, hstack⟩ := List.forall_mem_cons.mp hopen
        rw [remember_of_none hstores] at hloads
        refine List.forall_mem_cons.mpr ⟨⟨?_, ?_⟩, ih hrest hstack hnested hloads⟩
        · exact hload _ hloaded _ (hbalanced ▸ hc.slot)
        · rw [hafter, hbalanced, hc.after, hup]
    | plain =>
      simp only [Nested, matched, hkind] at hnested ⊢
      obtain ⟨hspares, hnested⟩ := hnested
      exact ih hrest (hspares.opened hopen) hnested hloads

end Memory

variable {v} {stack es : List E}

/-- A return is matched with a call. -/
theorem mem_matched {p : E × E} (h : p ∈ v.matched stack es) :
    (p.1 ∈ stack ∨ p.1 ∈ es ∧ v.kind p.1 = .call) ∧ p.2 ∈ es ∧ v.kind p.2 = .ret := by
  induction es generalizing stack with
  | nil => exact absurd h List.not_mem_nil
  | cons e es ih =>
    have hlater : ∀ {stack'}, p ∈ v.matched stack' es →
        (p.1 ∈ stack' ∨ p.1 ∈ e :: es ∧ v.kind p.1 = .call) ∧
        p.2 ∈ e :: es ∧ v.kind p.2 = .ret := by
      intro stack' hp
      obtain ⟨hcall, hret, hkind⟩ := ih hp
      exact ⟨hcall.imp id fun hmem ↦ ⟨List.mem_cons_of_mem _ hmem.1, hmem.2⟩,
        List.mem_cons_of_mem _ hret, hkind⟩
    cases hkind : v.kind e with
    | call =>
      simp only [matched, hkind] at h
      obtain ⟨hcall, hret⟩ := hlater h
      refine ⟨?_, hret⟩
      rcases hcall with hmem | hcall
      · rcases List.mem_cons.mp hmem with heq | hmem
        · exact .inr ⟨heq ▸ List.mem_cons_self, heq ▸ hkind⟩
        · exact .inl hmem
      · exact .inr hcall
    | ret =>
      cases stack with
      | nil =>
        simp only [matched, hkind] at h
        exact hlater h
      | cons c stack =>
        simp only [matched, hkind] at h
        rcases List.mem_cons.mp h with rfl | h
        · exact ⟨.inl List.mem_cons_self, List.mem_cons_self, hkind⟩
        · obtain ⟨hcall, hret⟩ := hlater h
          exact ⟨hcall.imp (List.mem_cons_of_mem _) id, hret⟩
    | plain =>
      simp only [matched, hkind] at h
      exact hlater h

/-- In a well-nested sequence every return has its call. -/
theorem Nested.exists_matched (h : v.Nested stack es) :
    ∀ r ∈ es, v.kind r = .ret → ∃ c, (c, r) ∈ v.matched stack es := by
  induction es generalizing stack with
  | nil => exact List.forall_mem_nil _
  | cons e es ih =>
    intro r hr hret
    cases hkind : v.kind e with
    | call =>
      simp only [Nested, matched, hkind] at h ⊢
      rcases List.mem_cons.mp hr with rfl | hr
      · exact Kind.noConfusion (hkind.symm.trans hret)
      · exact ih h.2 r hr hret
    | ret =>
      cases stack with
      | nil => simp only [Nested, hkind] at h
      | cons c stack =>
        simp only [Nested, matched, hkind] at h ⊢
        rcases List.mem_cons.mp hr with rfl | hr
        · exact ⟨c, List.mem_cons_self⟩
        · obtain ⟨c', hc'⟩ := ih h.2 r hr hret
          exact ⟨c', List.mem_cons_of_mem _ hc'⟩
    | plain =>
      simp only [Nested, matched, hkind] at h ⊢
      rcases List.mem_cons.mp hr with rfl | hr
      · exact Kind.noConfusion (hkind.symm.trans hret)
      · exact ih h.2 r hr hret

end View

end CallStack
