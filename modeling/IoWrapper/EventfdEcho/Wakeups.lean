import IoWrapper.EventfdEcho.Server

/-! The wakeups. The kernel posts completions one by one, but epoll reports one event for all
that have been posted since the last one, and a signal makes the other goroutine take one
completion; so completions stay behind that were posted while an event was pending. -/
namespace IoWrapper.EventfdEcho.Wakeups
open Core.Machine Core.Traffic GoEcho.Operations Server

variable {n : Nat} {syncCb : Bool} {lfd : Nat} {s t : State n}

def sending : EpollPc → Nat
  | .wait => 0
  | .send => 1

def peeking : SubPc → Nat
  | .peek => 1
  | .select | .deliver | .stopped => 0

/-- The events and signals on their way, each of which takes one completion. -/
def wakeups (s : State n) : Nat :=
  s.epollEvent.toNat + sending s.epoll + s.signCh + peeking s.sub

def Accounted (s : State n) : Prop := s.ring.cq.length = wakeups s + s.coalesced.length

theorem accounted_completed (h : Accounted s) (i : Nat) (cqe : Cqe) :
    Accounted (s.completed i cqe) := by
  unfold Accounted wakeups at h ⊢
  simp only [State.completed, IoRing.complete_cq, List.length_append, List.length_singleton]
  cases hevent : s.epollEvent with
  | true =>
    simp only [hevent, Bool.toNat_true, if_true, List.length_append, List.length_singleton] at h ⊢
    omega
  | false =>
    simp only [hevent, Bool.toNat_false, Bool.toNat_true, Bool.false_eq_true, if_false] at h ⊢
    omega

theorem Accounted.peeked {cqe : Cqe} {rest : List Cqe} (h : Accounted s) (hsub : s.sub = .peek)
    (hcq : s.ring.cq = cqe :: rest) :
    s.ring.seen.cq.length =
      s.epollEvent.toNat + sending s.epoll + s.signCh + s.coalesced.length := by
  simp only [Accounted, wakeups, hsub, peeking, hcq, List.length_cons] at h
  rw [IoRing.seen_cq, hcq, List.tail_cons]
  omega

variable [NeZero n]

theorem accounted_step {event : Event n} (h : Accounted s) (hstep : Step syncCb s event t) :
    Accounted t := by
  cases hstep with
  | panicked | prepared | registered | submitted | submitFailed | unregistered | epollFailed
  | received => exact h
  | completed => exact accounted_completed h _ _
  | reported hepoll hevent =>
    simp only [Accounted, wakeups, hepoll, hevent, sending, Bool.toNat_true, Bool.toNat_false]
      at h ⊢
    omega
  | signalled hepoll =>
    simp only [Accounted, wakeups, hepoll, sending] at h ⊢
    omega
  | signalReceived hsub hsignal =>
    simp only [Accounted, wakeups, hsub, peeking] at h ⊢
    omega
  | stopped hsub | put hsub =>
    simp only [Accounted, wakeups, hsub, peeking] at h ⊢
    exact h
  | peekedNone hsub hcq =>
    simp only [Accounted, wakeups, hsub, hcq, peeking, List.length_nil] at h
    omega
  | missed hsub hcq | unknown hsub hcq | delivered hsub hcq => exact h.peeked hsub hcq
  | @finished runner pool htodo hsub hpool =>
    cases runner with
    | none =>
      simp only [Accounted, wakeups, hsub rfl, peeking] at h
      exact h
    | some i => exact h

theorem accounted_of_reachable (h : Reachable (step syncCb) (State.init n lfd) s) : Accounted s :=
  h.invariant Accounted rfl fun _ _ _ _ hs hstep => accounted_step hs (step_sound hstep)

/-- No event is pending and no signal on its way, and both goroutines wait. -/
def Quiet (s : State n) : Prop :=
  s.epollEvent = false ∧ s.signCh = 0 ∧ s.epoll = .wait ∧ s.sub = .select

/-- When nothing is on its way any more, there are as many completions left as were posted
while an event was pending. -/
theorem left_eq_coalesced (h : Reachable (step syncCb) (State.init n lfd) s) (hquiet : Quiet s) :
    s.ring.cq.length = s.coalesced.length := by
  have haccounted := accounted_of_reachable h
  rcases hquiet with ⟨hevent, hsignal, hepoll, hsub⟩
  simp only [Accounted, wakeups, hevent, hsignal, hepoll, hsub, sending, peeking,
    Bool.toNat_false, Nat.zero_add] at haccounted
  exact haccounted

/-- No completion is left behind exactly if none was posted while an event was pending. -/
theorem none_stranded_iff (h : Reachable (step syncCb) (State.init n lfd) s) (hquiet : Quiet s) :
    s.ring.cq = [] ↔ s.coalesced = [] := by
  rw [← List.length_eq_zero_iff, left_eq_coalesced h hquiet, List.length_eq_zero_iff]

theorem none_stranded_one_client :
    ∃ s : State 2, Reachable (step false) (State.init 2 3) s ∧ Quiet s ∧
      s.posted.map Completion.res = [5] ∧ s.ring.cq = [] := by
  have hrun : (run (step false) (State.init 2 3) oneConnect).map
      (fun s => ((s.epollEvent, s.signCh, s.epoll, s.sub), s.posted.map Completion.res,
        s.coalesced)) = some ((false, 0, .wait, .select), [5], []) := by
    decide +kernel
  rcases Reachable.of_view hrun with ⟨s, hreach, hview⟩
  simp only [Prod.mk.injEq] at hview
  exact ⟨s, hreach, hview.1, hview.2.1,
    (none_stranded_iff hreach hview.1).mpr hview.2.2⟩

/-- The receive and the next accept complete before the event of the first of them is
reported. The accept stays in the queue, and no signal is on its way. -/
theorem accept_stranded :
    ∃ s : State 2, Reachable (step false) (State.init 2 3) s ∧ Quiet s ∧
      s.ring.cq = [⟨⟨.accept 3, 2⟩, 6⟩] := by
  have hrun : (run (step false) (State.init 2 3) (oneConnect ++
      ([.complete 1 3, .complete 0 6, .report, .signal, .receiveSignal, .peek, .put, .receive 1,
        .prepare (some (some 1)), .register 4, .submit 1, .finish (some 1)] :
        List (Event 2)))).map
      (fun s => ((s.epollEvent, s.signCh, s.epoll, s.sub), s.ring.cq)) =
      some ((false, 0, .wait, .select), [⟨⟨.accept 3, 2⟩, 6⟩]) := by
    decide +kernel
  rcases Reachable.of_view hrun with ⟨s, hreach, hview⟩
  simp only [Prod.mk.injEq] at hview
  exact ⟨s, hreach, hview.1, hview.2⟩

end IoWrapper.EventfdEcho.Wakeups
