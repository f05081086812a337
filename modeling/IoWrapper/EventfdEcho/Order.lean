import IoWrapper.EventfdEcho.Server

/-! The order of the callbacks. An event goes to a channel by its descriptor, and a channel
has one worker; so the callbacks of a descriptor run one after the other, in the order in
which their completions were taken, as they do without the workers. -/
namespace IoWrapper.EventfdEcho.Order
open Core.Machine Core.Dispatch Server

variable {n : Nat} [NeZero n]

abbrev Pool (n : Nat) := Core.Dispatch.State EventInfo (Fin n)

/-- The dispatching part of the server: any completions are taken, and the workers run in any
order. -/
abbrev poolStep (n : Nat) [NeZero n] (syncCb : Bool) :
    Pool n → Core.Dispatch.Event EventInfo (Fin n) → Option (Pool n) :=
  Core.Dispatch.step syncCb dispatchChSize (index n)

theorem pool_reachable {syncCb : Bool} {lfd : Nat} {s : Server.State n}
    (h : Reachable (Server.step syncCb) (.init n lfd) s) :
    Reachable (poolStep n syncCb) (.init EventInfo (Fin n)) s.pool := by
  apply h.component Server.State.pool
  intro s event t hstep
  cases Server.step_sound hstep with
  | panicked | prepared | registered | submitted | submitFailed | unregistered | completed
  | reported | epollFailed | signalled | signalReceived | stopped | peekedNone | missed
  | unknown => exact Or.inl rfl
  | delivered _ _ _ hpool | put _ hpool | received _ hpool | finished _ _ hpool =>
    exact Or.inr ⟨_, hpool⟩

/-- The events that `dispatch` sends to a channel by this descriptor: the accepts on a listening
one, and what follows on a connection. -/
def ofFd (fd : Nat) (events : List EventInfo) : List EventInfo :=
  events.filter fun event => dispatchFd event = fd

def Drained (s : Pool n) : Prop := s.hand = none ∧ ∀ i, s.queues i = []

/-- Events that `dispatch` sends to one channel run in the order in which they are taken. -/
theorem filter_started {s : Pool n} (h : Ordered (index n) s) {p : EventInfo → Bool} (fd : Nat)
    (hp : ∀ event, p event = true → dispatchFd event = fd) :
    s.started.filter p <+: s.taken.filter p ∧
      (Drained s → s.started.filter p = s.taken.filter p) := by
  have hsplit := h.filter_taken (i := Fin.ofNat n fd) fun event hevent => by
    rw [index, hp event hevent]
  rw [List.append_assoc] at hsplit
  refine ⟨⟨_, hsplit.symm⟩, ?_⟩
  rintro ⟨hhand, hqueues⟩
  rw [hhand, hqueues] at hsplit
  rw [hsplit]
  exact (List.append_nil _).symm

/-- The events with the same two descriptors. -/
def ofFds (lfd cfd : Nat) (events : List EventInfo) : List EventInfo :=
  events.filter fun event => event.lfd = lfd ∧ event.cfd = cfd

theorem ofFds_started {s : Pool n}
    (h : Reachable (poolStep n false) (.init EventInfo (Fin n)) s) (lfd cfd : Nat) :
    ofFds lfd cfd s.started <+: ofFds lfd cfd s.taken ∧
      (Drained s → ofFds lfd cfd s.started = ofFds lfd cfd s.taken) := by
  apply filter_started (ordered_of_reachable h) (if lfd ≤ 0 then cfd else lfd)
  intro event hevent
  rw [dispatchFd, (of_decide_eq_true hevent).1, (of_decide_eq_true hevent).2]

/-- Whatever completions are taken, with any number of workers in any order: on the same
completions, the callbacks of a descriptor that have run are the first of those that run
without workers, all of them once the channels are empty, and they run one at a time. -/
theorem callbacks_in_order {s : Pool n}
    (h : Reachable (poolStep n false) (.init EventInfo (Fin n)) s) (fd : Nat) :
    (∃ direct, Reachable (poolStep n true) (.init EventInfo (Fin n)) direct ∧
      direct.taken = s.taken) ∧
    (∀ direct, Reachable (poolStep n true) (.init EventInfo (Fin n)) direct →
      direct.taken = s.taken → direct.started = direct.taken ∧
        ofFd fd s.started <+: ofFd fd direct.started ∧
        (Drained s → ofFd fd s.started = ofFd fd direct.started)) ∧
    ∀ runner runner' event event', event ∈ s.running runner → event' ∈ s.running runner' →
      dispatchFd event = fd → dispatchFd event' = fd → runner = runner' := by
  have hordered := ordered_of_reachable h
  refine ⟨?_, ?_, ?_⟩
  · have hidle : (Core.Dispatch.State.init EventInfo (Fin n)).Idle := ⟨rfl, rfl⟩
    rcases direct_takes dispatchChSize (index n) hidle s.taken with ⟨direct, hdirect, htaken, -⟩
    exact ⟨direct, hdirect, htaken⟩
  · intro direct hdirect htaken
    have hstarted := started_of_direct hdirect
    have hchannel := filter_started hordered fd fun event => of_decide_eq_true
    rw [← htaken, ← hstarted] at hchannel
    exact ⟨hstarted, hchannel⟩
  · rintro runner runner' event event' hevent hevent' rfl hfd
    rw [hordered.running runner event hevent, hordered.running runner' event' hevent', index,
      index, hfd]

theorem callbacks_in_order_one_client :
    ∃ s : Pool 2, Reachable (poolStep 2 false) (.init EventInfo (Fin 2)) s ∧
      s.taken.map EventInfo.res = [3, 3] ∧ s.started.map EventInfo.res = [3] ∧
      ∀ direct, Reachable (poolStep 2 true) (.init EventInfo (Fin 2)) direct →
        direct.taken = s.taken → ofFd 5 s.started <+: ofFd 5 direct.started := by
  have hrun : (run (poolStep 2 false) (.init EventInfo (Fin 2))
      [.take ⟨⟨0, 5, .read⟩, some .readCb, 3⟩, .put, .receive 1,
        .take ⟨⟨0, 5, .write⟩, some .writeCb, 3⟩, .put]).map
      (fun s => (s.taken.map EventInfo.res, s.started.map EventInfo.res)) =
      some ([3, 3], [3]) := by
    decide +kernel
  rcases Reachable.of_view hrun with ⟨s, hreach, hview⟩
  simp only [Prod.mk.injEq] at hview
  refine ⟨s, hreach, hview.1, hview.2, ?_⟩
  intro direct hdirect htaken
  exact ((callbacks_in_order hreach 5).2.1 direct hdirect htaken).2.1

end IoWrapper.EventfdEcho.Order
