import Mathlib.Data.List.Basic
import Mathlib.Data.List.Induction

/-! Executable machines. A step answers an event with the next state, or with
nothing where the event cannot happen; a run is a list of events. A condition
on the steps of a run is a restriction of the machine, so that one induction
rule serves both all runs and the runs whose steps meet a condition; a history
is a part of the state of the machine that records it, and can tell whether a
condition has held all along. A handler that can fail is taken apart call by
call, or compared with another one that fails in the same way. -/
namespace IoWrapper.Core.Machine

variable {σ ε : Type}

def run (step : σ → ε → Option σ) (start : σ) (events : List ε) : Option σ :=
  events.foldlM step start

def Reachable (step : σ → ε → Option σ) (start state : σ) : Prop :=
  ∃ events, run step start events = some state

def restrict (allowed : σ → ε → Prop) [∀ s e, Decidable (allowed s e)]
    (step : σ → ε → Option σ) (state : σ) (event : ε) : Option σ :=
  if allowed state event then step state event else none

@[simp] theorem run_nil (step : σ → ε → Option σ) (start : σ) :
    run step start [] = some start := rfl

theorem run_cons (step : σ → ε → Option σ) (start : σ) (event : ε) (events : List ε) :
    run step start (event :: events) =
      (step start event).bind fun next => run step next events := rfl

theorem run_append (step : σ → ε → Option σ) (start : σ) (front back : List ε) :
    run step start (front ++ back) =
      (run step start front).bind fun next => run step next back := by
  simp only [run, List.foldlM_append]
  rfl

theorem Reachable.refl (step : σ → ε → Option σ) (start : σ) :
    Reachable step start start :=
  ⟨[], rfl⟩

theorem Reachable.tail {step : σ → ε → Option σ} {start state next : σ} {event : ε}
    (h : Reachable step start state) (hstep : step state event = some next) :
    Reachable step start next := by
  rcases h with ⟨events, hrun⟩
  refine ⟨events ++ [event], ?_⟩
  rw [run_append, hrun]
  simp [run_cons, hstep]

theorem Reachable.trans {step : σ → ε → Option σ} {start middle state : σ}
    (h : Reachable step start middle) (h' : Reachable step middle state) :
    Reachable step start state := by
  rcases h with ⟨front, hfront⟩
  rcases h' with ⟨back, hback⟩
  refine ⟨front ++ back, ?_⟩
  rw [run_append, hfront]
  exact hback

theorem Reachable.of_view {α : Type} {step : σ → ε → Option σ} {start : σ} {events : List ε}
    {view : σ → α} {seen : α} (h : (run step start events).map view = some seen) :
    ∃ state, Reachable step start state ∧ view state = seen := by
  rcases Option.map_eq_some_iff.mp h with ⟨state, hrun, hview⟩
  exact ⟨state, ⟨events, hrun⟩, hview⟩

/-- What holds at the start and is kept by every step holds in every reachable
state. The step may use that its source is reachable. -/
theorem Reachable.invariant {step : σ → ε → Option σ} {start state : σ}
    (inv : σ → Prop) (h : Reachable step start state) (base : inv start)
    (next : ∀ s e t, Reachable step start s → inv s → step s e = some t → inv t) :
    inv state := by
  rcases h with ⟨events, hrun⟩
  have key : ∀ (events : List ε) (s : σ), Reachable step start s → inv s →
      run step s events = some state → inv state := by
    intro events
    induction events with
    | nil =>
      intro s _ hs hrun
      cases Option.some.inj hrun
      exact hs
    | cons event events ih =>
      intro s hreach hs hrun
      rw [run_cons] at hrun
      rcases Option.bind_eq_some_iff.mp hrun with ⟨t, hstep, hrest⟩
      exact ih t (hreach.tail hstep) (next s event t hreach hs hstep) hrest
  exact key events start (Reachable.refl step start) base hrun

theorem restrict_eq_some {allowed : σ → ε → Prop} [∀ s e, Decidable (allowed s e)]
    {step : σ → ε → Option σ} {state next : σ} {event : ε} :
    restrict allowed step state event = some next ↔
      allowed state event ∧ step state event = some next := by
  unfold restrict
  split
  · rename_i h
    simp [h]
  · rename_i h
    simp [h]

theorem restrict_comm {allowed also : σ → ε → Prop} [∀ s e, Decidable (allowed s e)]
    [∀ s e, Decidable (also s e)] (step : σ → ε → Option σ) :
    restrict allowed (restrict also step) = restrict also (restrict allowed step) := by
  funext state event
  unfold restrict
  split <;> split <;> rfl

theorem Reachable.restrict_mono {allowed wider : σ → ε → Prop}
    [∀ s e, Decidable (allowed s e)] [∀ s e, Decidable (wider s e)]
    {step : σ → ε → Option σ} {start state : σ}
    (h : Reachable (restrict allowed step) start state)
    (hwider : ∀ s e, allowed s e → wider s e) : Reachable (restrict wider step) start state := by
  apply h.invariant (Reachable (restrict wider step) start) (Reachable.refl _ start)
  intro s event t _ hs hstep
  have hboth := restrict_eq_some.mp hstep
  exact hs.tail (restrict_eq_some.mpr ⟨hwider s event hboth.1, hboth.2⟩)

theorem Reachable.of_run_restrict {allowed : σ → ε → Prop} [∀ s e, Decidable (allowed s e)]
    {step : σ → ε → Option σ} {start state : σ} {events : List ε} (good : σ → Prop)
    (hrun : run step start events = some state) (hstart : good start)
    (hallowed : ∀ s, good s → ∀ e ∈ events, allowed s e)
    (hkeep : ∀ s, ∀ e ∈ events, ∀ t, good s → step s e = some t → good t) :
    Reachable (restrict allowed step) start state := by
  induction events generalizing start with
  | nil =>
    cases Option.some.inj hrun
    exact Reachable.refl _ _
  | cons event events ih =>
    rw [run_cons] at hrun
    rcases Option.bind_eq_some_iff.mp hrun with ⟨next, hstep, hrest⟩
    have hnext := hkeep start event (List.mem_cons_self ..) next hstart hstep
    have hfirst : restrict allowed step start event = some next :=
      restrict_eq_some.mpr ⟨hallowed start hstart event (List.mem_cons_self ..), hstep⟩
    refine ((Reachable.refl _ start).tail hfirst).trans (ih hrest hnext ?_ ?_)
    · exact fun s hs e he => hallowed s hs e (List.mem_cons_of_mem event he)
    · exact fun s e he => hkeep s e (List.mem_cons_of_mem event he)

theorem Reachable.of_restrict {allowed : σ → ε → Prop} [∀ s e, Decidable (allowed s e)]
    {step : σ → ε → Option σ} {start state : σ}
    (h : Reachable (restrict allowed step) start state) : Reachable step start state :=
  h.invariant (Reachable step start) (Reachable.refl step start)
    fun _ _ _ _ hs hstep => hs.tail (restrict_eq_some.mp hstep).2

theorem Reachable.component {τ δ : Type} {step : σ → ε → Option σ} {part : τ → δ → Option τ}
    {start state : σ} (f : σ → τ) (h : Reachable step start state)
    (hpart : ∀ s e t, step s e = some t → f t = f s ∨ ∃ d, part (f s) d = some (f t)) :
    Reachable part (f start) (f state) := by
  apply h.invariant (fun s => Reachable part (f start) (f s)) (Reachable.refl part (f start))
  intro s event t _ hs hstep
  rcases hpart s event t hstep with heq | ⟨d, hd⟩
  · rw [heq]
    exact hs
  · exact hs.tail hd

/-- A machine follows another one if it can answer every step so that the states stay
related. -/
theorem Reachable.simulate {τ δ : Type} {step : σ → ε → Option σ} {other : τ → δ → Option τ}
    {start state : σ} {start' : τ} (rel : σ → τ → Prop) (h : Reachable step start state)
    (hstart : rel start start')
    (hstep : ∀ s e t s', Reachable step start s → Reachable other start' s' → rel s s' →
      step s e = some t → ∃ t', Reachable other s' t' ∧ rel t t') :
    ∃ state', Reachable other start' state' ∧ rel state state' := by
  apply h.invariant (fun s => ∃ s', Reachable other start' s' ∧ rel s s')
  · exact ⟨start', Reachable.refl other start', hstart⟩
  · rintro s event t hreach ⟨s', hreach', hrel⟩ hnext
    rcases hstep s event t s' hreach hreach' hrel hnext with ⟨t', hmore, hrel'⟩
    exact ⟨t', hreach'.trans hmore, hrel'⟩

section Handlers

variable {ω α β : Type} {x : Except ω α} {f : α → Except ω β}

theorem bind_eq_ok {b : β} : x >>= f = .ok b ↔ ∃ a, x = .ok a ∧ f a = .ok b := by
  cases x with
  | ok a => simp [bind, Except.bind]
  | error e => simp [bind, Except.bind]

theorem bind_eq_error {e : ω} :
    x >>= f = .error e ↔ x = .error e ∨ ∃ a, x = .ok a ∧ f a = .error e := by
  cases x with
  | ok a => simp [bind, Except.bind]
  | error e' => simp [bind, Except.bind]

end Handlers

section Record

variable {α : Type} {note : σ → ε → List α} {step : σ → ε → Option σ}

def record (note : σ → ε → List α) (step : σ → ε → Option σ) (state : σ × List α) (event : ε) :
    Option (σ × List α) :=
  (step state.1 event).map fun next => (next, state.2 ++ note state.1 event)

theorem record_eq_some {state next : σ × List α} {event : ε} :
    record note step state event = some next ↔
      step state.1 event = some next.1 ∧ next.2 = state.2 ++ note state.1 event := by
  unfold record
  rw [Option.map_eq_some_iff]
  constructor
  · rintro ⟨t, hstep, rfl⟩
    exact ⟨hstep, rfl⟩
  · rintro ⟨hstep, hnext⟩
    exact ⟨next.1, hstep, by rw [← hnext]⟩

theorem Reachable.of_record {start state : σ × List α}
    (h : Reachable (record note step) start state) : Reachable step start.1 state.1 :=
  h.invariant (fun s => Reachable step start.1 s.1) (Reachable.refl step start.1)
    fun _ _ _ _ hs hstep => hs.tail (record_eq_some.mp hstep).1

theorem Reachable.recorded {start state : σ} (note : σ → ε → List α)
    (h : Reachable step start state) :
    ∃ notes, Reachable (record note step) (start, []) (state, notes) := by
  apply h.invariant fun s => ∃ notes, Reachable (record note step) (start, []) (s, notes)
  · exact ⟨[], Reachable.refl _ _⟩
  · rintro s event t _ ⟨notes, hs⟩ hstep
    exact ⟨notes ++ note s event, hs.tail (record_eq_some.mpr ⟨hstep, rfl⟩)⟩

section View

variable {τ δ : Type} {jot : σ → ε → α} {start : σ} {s t : σ × List α}

/-- A machine that sees only a part of each state, and of each event what is noted of it,
comes to the same as a run. -/
theorem Reachable.rerun {part : τ → δ → Option τ} {view : σ → τ} {event : α → δ}
    (h : Reachable (record (fun s e => [jot s e]) step) (start, []) s)
    (hstep : ∀ s e t, step s e = some t → part (view s) (event (jot s e)) = some (view t)) :
    run part (view start) (s.2.map event) = some (view s.1) := by
  apply h.invariant (fun s => run part (view start) (s.2.map event) = some (view s.1)) rfl
  intro s e t _ hs hnext
  rcases record_eq_some.mp hnext with ⟨hmove, hnotes⟩
  rw [hnotes, List.map_append, run_append, hs]
  exact congrArg (fun next => next.bind some) (hstep s.1 e t.1 hmove)

theorem Reachable.view_eq (part : τ → δ → Option τ) (view : σ → τ) (event : α → δ)
    (h : Reachable (record (fun s e => [jot s e]) step) (start, []) s)
    (h' : Reachable (record (fun s e => [jot s e]) step) (start, []) t)
    (hstep : ∀ s e t, step s e = some t → part (view s) (event (jot s e)) = some (view t))
    (hnotes : t.2 = s.2) : view t.1 = view s.1 := by
  have hrun := h'.rerun hstep
  rw [hnotes] at hrun
  exact Option.some.inj (hrun.symm.trans (h.rerun hstep))

end View

end Record

inductive Agrees {χ α β : Type} (rel : α → β → Prop) : Except χ α → Except χ β → Prop where
  | error (e : χ) : Agrees rel (.error e) (.error e)
  | ok {a : α} {b : β} (h : rel a b) : Agrees rel (.ok a) (.ok b)

section Agreement

variable {χ α β γ δ : Type} {rel : α → β → Prop} {x : Except χ α} {y : Except χ β}

theorem Agrees.mono {wider : α → β → Prop} (h : Agrees rel x y)
    (hwider : ∀ a b, rel a b → wider a b) : Agrees wider x y := by
  cases h with
  | error e => exact .error e
  | ok hrel => exact .ok (hwider _ _ hrel)

theorem Agrees.map {next : γ → δ → Prop} {f : α → γ} {g : β → δ} (h : Agrees rel x y)
    (hnext : ∀ a b, rel a b → next (f a) (g b)) : Agrees next (x.map f) (y.map g) := by
  cases h with
  | error e => exact .error e
  | ok hrel => exact .ok (hnext _ _ hrel)

theorem Agrees.andThen {next : γ → β → Prop} {f : α → Except χ γ} (h : Agrees rel x y)
    (hnext : ∀ a b, rel a b → ∃ c, f a = .ok c ∧ next c b) : Agrees next (x >>= f) y := by
  cases h with
  | error e => exact .error e
  | ok hrel =>
    rcases hnext _ _ hrel with ⟨c, hc, hnext⟩
    change Agrees next (f _) _
    rw [hc]
    exact .ok hnext

end Agreement

section Always

variable {step : σ → ε → Option σ} {start state : σ} {events : List ε}

def Always (step : σ → ε → Option σ) (start : σ) (events : List ε) (cond : σ → Prop) : Prop :=
  ∀ front, front <+: events → ∀ t, run step start front = some t → cond t

theorem always_nil {cond : σ → Prop} : Always step start [] cond ↔ cond start := by
  constructor
  · exact fun h => h [] List.prefix_rfl start rfl
  · intro h front hfront t hrun
    rw [List.prefix_nil.mp hfront] at hrun
    cases hrun
    exact h

theorem run_concat {event : ε} (h : run step start (events ++ [event]) = some state) :
    ∃ s, run step start events = some s ∧ step s event = some state := by
  rw [run_append] at h
  rcases Option.bind_eq_some_iff.mp h with ⟨s, hrun, hlast⟩
  rw [run_cons] at hlast
  rcases Option.bind_eq_some_iff.mp hlast with ⟨t, hstep, ht⟩
  cases ht
  exact ⟨s, hrun, hstep⟩

theorem always_concat {event : ε} {cond : σ → Prop}
    (h : run step start (events ++ [event]) = some state) :
    Always step start (events ++ [event]) cond ↔ Always step start events cond ∧ cond state := by
  constructor
  · intro hall
    exact ⟨fun front hfront => hall front (hfront.trans (List.prefix_append ..)),
      hall _ List.prefix_rfl state h⟩
  · rintro ⟨hall, hlast⟩ front hfront t hrun
    rcases List.prefix_concat_iff.mp hfront with rfl | hfront
    · cases h.symm.trans hrun
      exact hlast
    · exact hall front hfront t hrun

/-- A condition holds all along a run just if the last state says so: as long as the state
says so an invariant is kept, the condition has failed when it does not say so any more, and
it never takes that back. -/
theorem always_iff {cond : σ → Prop} (inv told : σ → Prop)
    (hrun : run step start events = some state) (hstart : inv start ∧ told start)
    (hcond : ∀ s, inv s → cond s)
    (hkeep : ∀ s e t, Reachable step start s → inv s → step s e = some t → told t → inv t)
    (hfail : ∀ s e t, Reachable step start s → told s → inv s → step s e = some t →
      ¬told t → ¬cond t)
    (hback : ∀ s e t, step s e = some t → told t → told s) :
    Always step start events cond ↔ told state := by
  have hinv : ∀ s, Reachable step start s → told s → inv s := by
    intro s hreach
    apply hreach.invariant (fun s => told s → inv s) (fun _ => hstart.1)
    intro s event t hreach hs hstep htold
    exact hkeep s event t hreach (hs (hback s event t hstep htold)) hstep htold
  induction events using List.reverseRecOn generalizing state with
  | nil =>
    cases hrun
    rw [always_nil]
    exact ⟨fun _ => hstart.2, fun _ => hcond start hstart.1⟩
  | append_singleton events event ih =>
    rcases run_concat hrun with ⟨s, hs, hlast⟩
    have hreach : Reachable step start s := ⟨events, hs⟩
    have hfront : Always step start events cond ↔ told s := ih hs
    rw [always_concat hrun, hfront]
    constructor
    · rintro ⟨htold, hcond⟩
      by_contra hno
      exact hfail s event state hreach htold (hinv s hreach htold) hlast hno hcond
    · intro htold
      have hbefore := hback s event state hlast htold
      have hkept := hkeep s event state hreach (hinv s hreach hbefore) hlast htold
      exact ⟨hbefore, hcond state hkept⟩

theorem always_record_iff {α : Type} {note : σ → ε → List α} {notes : List α} {cond : σ → Prop}
    (inv : σ → Prop) (hrun : run (record note step) (start, []) events = some (state, notes))
    (hstart : inv start) (hcond : ∀ s, inv s → cond s)
    (hkeep : ∀ s e t, Reachable step start s → inv s → step s e = some t → note s e = [] → inv t)
    (hfail : ∀ s e t, Reachable step start s → inv s → step s e = some t → note s e ≠ [] →
      ¬cond t) :
    Always (record note step) (start, []) events (fun t => cond t.1) ↔ notes = [] := by
  apply always_iff (fun t => inv t.1) (fun t => t.2 = []) hrun ⟨hstart, rfl⟩
  · exact fun s => hcond s.1
  · intro s event t hreach hs hstep hnone
    rcases record_eq_some.mp hstep with ⟨hmove, hnotes⟩
    rw [hnotes] at hnone
    exact hkeep s.1 event t.1 hreach.of_record hs hmove (List.append_eq_nil_iff.mp hnone).2
  · intro s event t hreach hnone hs hstep hsome
    rcases record_eq_some.mp hstep with ⟨hmove, hnotes⟩
    rw [hnotes, hnone, List.nil_append] at hsome
    exact hfail s.1 event t.1 hreach.of_record hs hmove hsome
  · intro s event t hstep hnone
    rw [(record_eq_some.mp hstep).2] at hnone
    exact (List.append_eq_nil_iff.mp hnone).1

end Always

end IoWrapper.Core.Machine
