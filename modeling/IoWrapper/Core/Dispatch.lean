import Mathlib.Logic.Function.Basic
import IoWrapper.Core.Collections
import IoWrapper.Core.Machine

/-! A dispatcher with a bounded channel for each of its workers. It takes items one at a time
and puts each on the channel that the item is routed to, or, without workers, runs it
itself. What is routed to one channel is started in the order in which it was taken. -/
namespace IoWrapper.Core.Dispatch
open Core.Collections Core.Machine

variable {α ι : Type} [DecidableEq ι]

/-- The item in the hand of the dispatcher is still to be put on its channel. An item is run
by the dispatcher or by a worker; it is noted what has been taken and what has been
started. -/
structure State (α ι : Type) where
  hand : Option α
  queues : ι → List α
  running : Option ι → Option α
  taken : List α
  started : List α

inductive Event (α ι : Type) where
  | take (a : α)
  | put
  | receive (i : ι)
  | finish (runner : Option ι)

def State.init (α ι : Type) : State α ι :=
  { hand := none
    queues := fun _ => []
    running := fun _ => none
    taken := []
    started := [] }

def State.Idle (s : State α ι) : Prop := s.hand = none ∧ s.running none = none

def State.take (direct : Bool) (s : State α ι) (a : α) : State α ι :=
  if direct then
    { s with
      running := Function.update s.running none (some a)
      taken := s.taken ++ [a]
      started := s.started ++ [a] }
  else { s with hand := some a, taken := s.taken ++ [a] }

def State.put (route : α → ι) (s : State α ι) (a : α) : State α ι :=
  { s with
    hand := none
    queues := Function.update s.queues (route a) (s.queues (route a) ++ [a]) }

def State.receive (s : State α ι) (i : ι) (a : α) : State α ι :=
  { s with
    queues := Function.update s.queues i (s.queues i).tail
    running := Function.update s.running (some i) (some a)
    started := s.started ++ [a] }

def State.finish (s : State α ι) (runner : Option ι) : State α ι :=
  { s with running := Function.update s.running runner none }

def step (direct : Bool) (capacity : Nat) (route : α → ι) (s : State α ι) :
    Event α ι → Option (State α ι)
  | .take a => if s.hand.isNone ∧ (s.running none).isNone then some (s.take direct a) else none
  | .put =>
    match s.hand with
    | some a =>
      if (s.queues (route a)).length < capacity then some (s.put route a) else none
    | none => none
  | .receive i =>
    match s.running (some i), s.queues i with
    | none, a :: _ => some (s.receive i a)
    | _, _ => none
  | .finish runner => if (s.running runner).isSome then some (s.finish runner) else none

section Step

variable {direct : Bool} {capacity : Nat} {route : α → ι} {s t : State α ι}

inductive Step (direct : Bool) (route : α → ι) (s : State α ι) :
    Event α ι → State α ι → Prop where
  | took {a : α} (hhand : s.hand = none) (hrunning : s.running none = none) :
      Step direct route s (.take a) (s.take direct a)
  | put {a : α} (hhand : s.hand = some a) :
      Step direct route s .put (s.put route a)
  | received {i : ι} {a : α} {rest : List α} (hrunning : s.running (some i) = none)
      (hqueue : s.queues i = a :: rest) :
      Step direct route s (.receive i) (s.receive i a)
  | finished {runner : Option ι} : Step direct route s (.finish runner) (s.finish runner)

theorem step_sound {event : Event α ι} (h : step direct capacity route s event = some t) :
    Step direct route s event t := by
  cases event with
  | take a =>
    simp only [step, Option.ite_none_right_eq_some, Option.isNone_iff_eq_none,
      Option.some.injEq] at h
    rcases h with ⟨⟨hhand, hrunning⟩, rfl⟩
    exact .took hhand hrunning
  | put =>
    simp only [step] at h
    split at h
    · rename_i a hhand
      rw [Option.ite_none_right_eq_some] at h
      cases h.2
      exact .put hhand
    · cases h
  | receive i =>
    simp only [step] at h
    split at h
    · rename_i a rest hrunning hqueue
      cases h
      exact .received hrunning hqueue
    · cases h
  | finish runner =>
    simp only [step, Option.ite_none_right_eq_some, Option.some.injEq] at h
    cases h.2
    exact .finished

def Event.item : Event α ι → List α
  | .take a => [a]
  | .put | .receive _ | .finish _ => []

theorem taken_step {event : Event α ι} (h : step direct capacity route s event = some t) :
    t.taken = s.taken ++ event.item := by
  cases step_sound h with
  | took =>
    unfold State.take
    split <;> rfl
  | put | received | finished => exact (List.append_nil _).symm

def Event.starts (direct : Bool) (s : State α ι) : Event α ι → List α
  | .take a => if direct then [a] else []
  | .receive i => (s.queues i).head?.toList
  | .put | .finish _ => []

theorem started_step {event : Event α ι} (h : step direct capacity route s event = some t) :
    t.started = s.started ++ event.starts direct s := by
  cases step_sound h with
  | took =>
    simp only [State.take, Event.starts]
    split
    · rfl
    · exact (List.append_nil _).symm
  | received _ hqueue =>
    simp only [Event.starts, hqueue, List.head?_cons, Option.toList_some]
    rfl
  | put | finished => exact (List.append_nil _).symm

theorem taken_of_queued (h : Reachable (step direct capacity route) (State.init α ι) s) :
    (∀ a ∈ s.hand, a ∈ s.taken) ∧ ∀ i, ∀ a ∈ s.queues i, a ∈ s.taken := by
  apply h.invariant fun s => (∀ a ∈ s.hand, a ∈ s.taken) ∧ ∀ i, ∀ a ∈ s.queues i, a ∈ s.taken
  · exact ⟨fun _ ha => (nomatch ha), fun _ _ => List.not_mem_nil.elim⟩
  · rintro s event t _ ⟨hhand, hqueues⟩ hstep
    cases step_sound hstep with
    | @took a hnone =>
      have hkeep : ∀ i, ∀ b ∈ s.queues i, b ∈ s.taken ++ [a] :=
        fun i b hb => List.mem_append_left _ (hqueues i b hb)
      unfold State.take
      split
      · refine ⟨?_, hkeep⟩
        rw [hnone]
        exact fun _ ha => (nomatch ha)
      · refine ⟨fun b hb => ?_, hkeep⟩
        cases hb
        exact List.mem_append_right _ (List.mem_cons_self ..)
    | @put a hsome =>
      refine ⟨fun _ ha => (nomatch ha), ?_⟩
      apply (Function.forall_update_iff s.queues fun _ queue => ∀ b ∈ queue, b ∈ s.taken).mpr
      refine ⟨?_, fun i _ => hqueues i⟩
      rw [List.forall_mem_append]
      exact ⟨hqueues _, List.forall_mem_singleton.mpr (hhand a hsome)⟩
    | @received i =>
      refine ⟨hhand, ?_⟩
      apply (Function.forall_update_iff s.queues fun _ queue => ∀ b ∈ queue, b ∈ s.taken).mpr
      exact ⟨fun b hb => hqueues i b (List.mem_of_mem_tail hb), fun j _ => hqueues j⟩
    | finished => exact ⟨hhand, hqueues⟩

theorem countP_taken [Fintype ι] (h : Reachable (step direct capacity route) (State.init α ι) s)
    (p : α → Bool) :
    s.taken.countP p =
      s.started.countP p + (∑ i, (s.queues i).countP p) + s.hand.toList.countP p := by
  apply h.invariant fun s => s.taken.countP p =
    s.started.countP p + (∑ i, (s.queues i).countP p) + s.hand.toList.countP p
  · simp [State.init]
  · intro s event t _ hs hstep
    cases step_sound hstep with
    | took hhand =>
      rw [hhand] at hs
      cases direct with
      | true =>
        simp only [State.take, if_true, List.countP_append, hhand]
        omega
      | false =>
        simp only [State.take, Bool.false_eq_true, if_false, List.countP_append,
          Option.toList_none, Option.toList_some, List.countP_nil] at hs ⊢
        omega
    | @put a hhand =>
      have htotal := sum_update_add (List.countP p) s.queues (route a)
        (s.queues (route a) ++ [a])
      rw [hhand] at hs
      simp only [State.put, List.countP_append, Option.toList_none, Option.toList_some,
        List.countP_nil] at hs htotal ⊢
      omega
    | @received i a rest hrunning hqueue =>
      have htotal := sum_update_add (List.countP p) s.queues i (s.queues i).tail
      have hsplit : (s.queues i).countP p = [a].countP p + (s.queues i).tail.countP p := by
        rw [hqueue, List.tail_cons, ← List.countP_append, List.singleton_append]
      simp only [State.receive, List.countP_append] at hs htotal ⊢
      omega
    | finished => exact hs

end Step

section Workers

variable {capacity : Nat} {route : α → ι} {s t : State α ι}

/-- What is routed to a channel has been started, or is on the channel, or in the hand of
the dispatcher, in this order. -/
structure Ordered (route : α → ι) (s : State α ι) : Prop where
  split : ∀ i, s.taken.filter (route · = i) =
    s.started.filter (route · = i) ++ s.queues i ++ s.hand.toList.filter (route · = i)
  queued : ∀ i, ∀ a ∈ s.queues i, route a = i
  running : ∀ runner, ∀ a ∈ s.running runner, runner = some (route a)

theorem ordered_init (route : α → ι) : Ordered route (State.init α ι) :=
  ⟨fun _ => rfl, fun _ _ => List.not_mem_nil.elim, fun _ _ h => nomatch h⟩

theorem Ordered.take (h : Ordered route s) (hhand : s.hand = none) (a : α) :
    Ordered route (s.take false a) := by
  refine ⟨fun i => ?_, h.queued, h.running⟩
  have hsplit := h.split i
  rw [hhand] at hsplit
  simp only [State.take, Bool.false_eq_true, if_false, List.filter_append, hsplit,
    Option.toList_none, List.filter_nil, List.append_nil, Option.toList_some]

theorem Ordered.put {a : α} (h : Ordered route s) (hhand : s.hand = some a) :
    Ordered route (s.put route a) := by
  refine ⟨fun i => ?_, ?_, h.running⟩
  · have hsplit := h.split i
    rw [hhand] at hsplit
    dsimp only [State.put]
    rw [hsplit]
    by_cases hi : i = route a
    · rw [hi, Function.update_self]
      simp
    · rw [Function.update_of_ne hi]
      simp [Ne.symm hi]
  · apply (Function.forall_update_iff s.queues fun i queue => ∀ b ∈ queue, route b = i).mpr
    refine ⟨?_, fun i _ => h.queued i⟩
    rw [List.forall_mem_append]
    exact ⟨h.queued _, List.forall_mem_singleton.mpr rfl⟩

theorem Ordered.receive {i : ι} {a : α} {rest : List α} (h : Ordered route s)
    (hqueue : s.queues i = a :: rest) : Ordered route (s.receive i a) := by
  have hqueued := h.queued i
  rw [hqueue, List.forall_mem_cons] at hqueued
  refine ⟨fun j => ?_, ?_, ?_⟩
  · have hsplit := h.split j
    dsimp only [State.receive]
    rw [hsplit, hqueue, List.tail_cons]
    by_cases hj : j = i
    · rw [hj, Function.update_self, hqueue]
      simp [hqueued.1]
    · rw [Function.update_of_ne hj]
      simp [hqueued.1, Ne.symm hj]
  · apply (Function.forall_update_iff s.queues fun i queue => ∀ b ∈ queue, route b = i).mpr
    rw [hqueue, List.tail_cons]
    exact ⟨hqueued.2, fun j _ => h.queued j⟩
  · apply (Function.forall_update_iff s.running
      fun runner item => ∀ b ∈ item, runner = some (route b)).mpr
    refine ⟨?_, fun runner _ => h.running runner⟩
    rintro b hb
    cases hb
    rw [hqueued.1]

theorem Ordered.finish (h : Ordered route s) (runner : Option ι) :
    Ordered route (s.finish runner) := by
  refine ⟨h.split, h.queued, ?_⟩
  apply (Function.forall_update_iff s.running
    fun runner item => ∀ b ∈ item, runner = some (route b)).mpr
  exact ⟨fun _ hb => (nomatch hb), fun runner _ => h.running runner⟩

theorem ordered_step {event : Event α ι} (h : Ordered route s)
    (hstep : Step false route s event t) : Ordered route t := by
  cases hstep with
  | took hhand hrunning => exact h.take hhand _
  | put hhand => exact h.put hhand
  | received hrunning hqueue => exact h.receive hqueue
  | finished => exact h.finish _

theorem ordered_of_reachable
    (h : Reachable (step false capacity route) (State.init α ι) s) : Ordered route s :=
  h.invariant (Ordered route) (ordered_init route)
    fun _ _ _ _ hs hstep => ordered_step hs (step_sound hstep)

theorem Ordered.filter_taken (h : Ordered route s) {p : α → Bool} {i : ι}
    (hp : ∀ a, p a → route a = i) :
    s.taken.filter p = s.started.filter p ++ (s.queues i).filter p ++ s.hand.toList.filter p := by
  have hrestrict : ∀ items : List α, (items.filter (route · = i)).filter p = items.filter p := by
    intro items
    rw [List.filter_filter]
    apply List.filter_congr
    intro a _
    by_cases ha : p a
    · simp [ha, hp a ha]
    · simp [ha]
  have hsplit := congrArg (List.filter p) (h.split i)
  rw [List.filter_append, List.filter_append, hrestrict, hrestrict, hrestrict] at hsplit
  exact hsplit

end Workers

section Direct

variable {capacity : Nat} {route : α → ι} {s : State α ι}

theorem started_of_direct
    (h : Reachable (step true capacity route) (State.init α ι) s) : s.started = s.taken := by
  suffices hall : s.started = s.taken ∧ s.hand = none ∧ ∀ i, s.queues i = [] from hall.1
  apply h.invariant fun s => s.started = s.taken ∧ s.hand = none ∧ ∀ i, s.queues i = []
  · exact ⟨rfl, rfl, fun _ => rfl⟩
  · rintro s event t _ ⟨hstarted, hhand, hqueues⟩ hstep
    cases step_sound hstep with
    | took =>
      refine ⟨?_, hhand, hqueues⟩
      simp only [State.take, if_true, hstarted]
    | put hsome =>
      rw [hhand] at hsome
      cases hsome
    | received _ hqueue =>
      rw [hqueues] at hqueue
      cases hqueue
    | finished => exact ⟨hstarted, hhand, hqueues⟩

theorem direct_takes (capacity : Nat) (route : α → ι) (h : s.Idle) (items : List α) :
    ∃ t, Reachable (step true capacity route) s t ∧ t.taken = s.taken ++ items ∧ t.Idle := by
  induction items generalizing s with
  | nil => exact ⟨s, Reachable.refl _ _, (List.append_nil _).symm, h⟩
  | cons a items ih =>
    have htake : step true capacity route s (.take a) = some (s.take true a) := by
      simp [step, h.1, h.2]
    have hfinish : step true capacity route (s.take true a) (.finish none) =
        some ((s.take true a).finish none) := by
      simp [step, State.take]
    have hnext : ((s.take true a).finish none).Idle :=
      ⟨h.1, by simp [State.finish]⟩
    rcases ih hnext with ⟨t, hreach, htaken, hidle⟩
    refine ⟨t, (((Reachable.refl _ s).tail htake).tail hfinish).trans hreach, ?_, hidle⟩
    rw [htaken]
    simp [State.take, State.finish]

end Direct

end IoWrapper.Core.Dispatch
