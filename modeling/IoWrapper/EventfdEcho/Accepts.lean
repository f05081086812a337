import Mathlib.Data.Fintype.Option
import IoWrapper.EventfdEcho.Order
import IoWrapper.EventfdEcho.Registry
import IoWrapper.EventfdEcho.Wakeups
import IoWrapper.MultiEcho.Accepts

/-! The accept of the server. It goes from the ring to the callback and from the callback back
to the ring, and it is dropped where an accept fails. It also stays where it is if no wakeup
comes for its completion, and ends with the process. -/
namespace IoWrapper.EventfdEcho.Accepts
open Core.Collections Core.Machine Core.Traffic Core.Registry GoEcho.Operations Server Registry
open Wakeups (wakeups Accounted accounted_of_reachable)
open MultiEcho.Accepts (acceptsPending Setback halted)

def isAccept (info : Server.EventInfo) : Bool := info.etype = .accept

def failed (info : Server.EventInfo) : Bool := isAccept info && info.res < 0

variable {n : Nat}

def todoAccepts (todo : Goroutine n → List Request) : Nat :=
  ∑ g, (todo g).countP Request.isAccept

def lockAccepts : Option (Goroutine n × Phase) → Nat
  | some (_, .prepared prepared) => if prepared.op.isAccept then 1 else 0
  | some (_, .registered _) | some (_, .failed _) | none => 0

theorem todoAccepts_update (todo : Goroutine n → List Request) (g : Goroutine n)
    (requests : List Request) :
    todoAccepts (Function.update todo g requests) + (todo g).countP Request.isAccept =
      todoAccepts todo + requests.countP Request.isAccept :=
  sum_update_add (List.countP Request.isAccept) todo g requests

theorem isAccept_answered (cqe : Cqe) : isAccept (answered cqe) = cqe.entry.op.isAccept := by
  unfold isAccept answered own
  cases cqe.entry.op with
  | accept | recv | send | close => rfl

theorem countP_requests (cqe : Cqe) :
    (answered cqe).requests.countP Request.isAccept + (if failed (answered cqe) then 1 else 0) =
      if isAccept (answered cqe) then 1 else 0 := by
  unfold failed
  rw [isAccept_answered]
  unfold answered own
  cases cqe.entry.op with
  | accept lfd =>
    simp only [connInfo, Server.EventInfo.requests, callback, Op.request, Callback.call, accpetCb]
    by_cases hres : cqe.res < 0
    · simp [hres, Op.isAccept, Op.request, Request.isAccept]
    · simp [hres, Op.isAccept, Op.request, Request.isAccept, List.countP_cons]
  | recv fd buf len =>
    simp only [connInfo, Server.EventInfo.requests, callback, Op.request, Callback.call, readCb]
    split
    · split <;> rfl
    · rfl
  | send | close => rfl

/-- The accept is pending, about to be submitted, or on its way to its callback; or it has
failed. -/
def Balanced (s : State n) : Prop :=
  acceptsPending s.ring + lockAccepts s.submitLock + todoAccepts s.todo +
    s.pool.taken.countP isAccept + s.pool.started.countP failed =
      1 + s.pool.started.countP isAccept

section Steps

variable {s t : State n}

theorem balanced_init (n lfd : Nat) : Balanced (State.init n lfd) := by
  have htodo := todoAccepts_update (fun _ : Goroutine n => []) none [.accept lfd]
  have hnone : todoAccepts (fun _ : Goroutine n => []) = 0 := Finset.sum_const_zero
  have hone : [Request.accept lfd].countP Request.isAccept = 1 := rfl
  rw [hnone, List.countP_nil, hone] at htodo
  change 0 + 0 + todoAccepts (Function.update _ none [.accept lfd]) + 0 + 0 = 1 + 0
  omega

theorem Balanced.prepare {g : Goroutine n} {request : Request} {rest : List Request}
    {prepared : Prepared} (h : Balanced s) (hlock : s.submitLock = none)
    (htodo : s.todo g = request :: rest) (hprepare : request.prepare 1 = .ok prepared) :
    Balanced { s with
      submitLock := some (g, .prepared prepared)
      todo := Function.update s.todo g rest } := by
  have hupdate := todoAccepts_update s.todo g rest
  have hrequest : prepared.op.isAccept = request.isAccept := by
    unfold Op.isAccept
    rw [(prepare_eq_ok hprepare).1]
  unfold Balanced at h ⊢
  rw [hlock] at h
  rw [htodo, List.countP_cons] at hupdate
  simp only [lockAccepts, hrequest] at h ⊢
  omega

theorem Balanced.register {g : Goroutine n} {prepared : Prepared} (h : Balanced s)
    (hlock : s.submitLock = some (g, .prepared prepared)) (userData : Nat) :
    Balanced (s.registered g prepared userData) := by
  have hpending := (IoRing.pending_push s.ring ⟨prepared.op, userData⟩).countP_eq
    fun sqe => sqe.op.isAccept
  rw [List.countP_cons] at hpending
  dsimp only at hpending
  unfold Balanced at h ⊢
  rw [hlock] at h
  simp only [State.registered, lockAccepts, acceptsPending] at h ⊢
  omega

theorem Balanced.of_perm {ring : IoRing Sqe} (h : Balanced s)
    (hpending : ring.pending.Perm s.ring.pending) : Balanced { s with ring := ring } := by
  have hcount := hpending.countP_eq fun sqe => sqe.op.isAccept
  unfold Balanced acceptsPending at h ⊢
  dsimp only
  rw [hcount]
  exact h

def Resting (s : State n) : Prop :=
  ∀ runner, s.pool.running runner = none → s.todo (some runner) = []

theorem Resting.start (h : Resting s) (own : Option (Fin n)) (info : Server.EventInfo)
    (requests : List Request) (runner : Option (Fin n))
    (hrunning : Function.update s.pool.running own (some info) runner = none) :
    Function.update s.todo (some own) requests (some runner) = [] := by
  by_cases heq : runner = own
  · rw [heq, Function.update_self] at hrunning
    cases hrunning
  · rw [Function.update_of_ne heq] at hrunning
    rw [Function.update_of_ne fun hsome => heq (Option.some.inj hsome)]
    exact h runner hrunning

variable [NeZero n] {syncCb : Bool} {pool : Core.Dispatch.State Server.EventInfo (Fin n)}

theorem Balanced.deliver {cqe : Cqe} {rest : List Cqe} (h : Balanced s) (hresting : Resting s)
    (hcq : s.ring.cq = cqe :: rest)
    (hpool : Core.Dispatch.step syncCb dispatchChSize (index n) s.pool (.take (answered cqe)) =
      some pool) : Balanced (s.delivered syncCb cqe (answered cqe) pool) := by
  have hpending := (IoRing.pending_seen hcq).countP_eq fun sqe => sqe.op.isAccept
  have hrequests := countP_requests cqe
  rw [List.countP_cons, ← isAccept_answered] at hpending
  unfold Balanced acceptsPending at h ⊢
  simp only [State.delivered, Core.Dispatch.taken_step hpool, Core.Dispatch.started_step hpool,
    Core.Dispatch.Event.item, Core.Dispatch.Event.starts]
  cases syncCb with
  | false =>
    simp only [Bool.false_eq_true, if_false, List.append_nil, List.countP_append,
      List.countP_singleton]
    omega
  | true =>
    have hnone : s.todo (some none) = [] := by
      cases Core.Dispatch.step_sound hpool with
      | took _ hrunning => exact hresting none hrunning
    have hupdate := todoAccepts_update s.todo (some none) (answered cqe).requests
    rw [hnone, List.countP_nil] at hupdate
    simp only [if_true, List.countP_append, List.countP_singleton]
    omega

theorem Balanced.receive {i : Fin n} {cqe : Cqe} {rest : List Server.EventInfo} (h : Balanced s)
    (hresting : Resting s) (hqueue : s.pool.queues i = answered cqe :: rest)
    (hpool : Core.Dispatch.step syncCb dispatchChSize (index n) s.pool (.receive i) = some pool) :
    Balanced { s with
      pool := pool
      todo := Function.update s.todo (some (some i)) (answered cqe).requests } := by
  have hrequests := countP_requests cqe
  have hnone : s.todo (some (some i)) = [] := by
    cases Core.Dispatch.step_sound hpool with
    | received hrunning => exact hresting (some i) hrunning
  have hupdate := todoAccepts_update s.todo (some (some i)) (answered cqe).requests
  rw [hnone, List.countP_nil] at hupdate
  unfold Balanced at h ⊢
  simp only [Core.Dispatch.taken_step hpool, Core.Dispatch.started_step hpool,
    Core.Dispatch.Event.item, Core.Dispatch.Event.starts, hqueue, List.head?_cons,
    Option.toList_some, List.append_nil, List.countP_append, List.countP_singleton]
  omega

theorem resting_step {event : Event n} (h : Resting s) (hstep : Step syncCb s event t) :
    Resting t := by
  cases hstep with
  | panicked | registered | submitted | submitFailed | unregistered | completed | reported
  | epollFailed | signalled | signalReceived | stopped | peekedNone | missed | unknown => exact h
  | @prepared g request rest prepared hlock htodo hprepare =>
    intro runner hrunning
    have hnone := h runner hrunning
    dsimp only
    rw [Function.update_of_ne]
    · exact hnone
    · rintro rfl
      rw [hnone] at htodo
      cases htodo
  | delivered hsub hcq hlookup hpool =>
    cases Core.Dispatch.step_sound hpool with
    | took =>
      cases syncCb with
      | false => exact h
      | true => exact h.start none _ _
  | put hsub hpool =>
    cases Core.Dispatch.step_sound hpool with
    | put => exact h
  | received hqueue hpool =>
    cases Core.Dispatch.step_sound hpool with
    | received => exact h.start (some _) _ _
  | @finished own pool htodo hsub hpool =>
    cases Core.Dispatch.step_sound hpool with
    | finished =>
      intro runner hrunning
      by_cases heq : runner = own
      · rw [heq]
        exact htodo
      · exact h runner ((Function.update_of_ne heq _ _).symm.trans hrunning)

theorem resting_of_reachable {lfd : Nat} (h : Reachable (step syncCb) (State.init n lfd) s) :
    Resting s := by
  apply h.invariant Resting
  · intro runner _
    simp only [State.init]
    rw [Function.update_of_ne (Option.some_ne_none runner)]
  · exact fun s event t _ hs hstep => resting_step hs (step_sound hstep)

theorem balanced_step {event : Event n} (h : Balanced s) (hresting : Resting s)
    (hregistered : Registered s)
    (hqueued : ∀ i, ∀ info ∈ s.pool.queues i, ∃ cqe, info = answered cqe)
    (hstep : Step syncCb s event t) : Balanced t := by
  cases hstep with
  | panicked | reported | epollFailed | signalled | signalReceived | stopped | peekedNone =>
    exact h
  | prepared hlock htodo hprepare => exact h.prepare hlock htodo hprepare
  | registered hlock hnew => exact h.register hlock _
  | @submitted _ _ count hlock | @submitFailed _ _ count hlock =>
    have hring := h.of_perm (IoRing.pending_submit s.ring count)
    unfold Balanced at hring
    rw [hlock] at hring
    exact hring
  | unregistered hlock => exact absurd hlock (hregistered.unfailed _ _)
  | completed hsqe => exact h.of_perm (IoRing.pending_complete hsqe)
  | missed hsub hcq hlookup =>
    rw [hregistered.lookup_head hcq] at hlookup
    cases hlookup
  | unknown hsub hcq hlookup hinfo =>
    rw [hregistered.lookup_head hcq] at hlookup
    cases hlookup
    exact absurd hinfo (not_or.mpr (own_known _))
  | delivered hsub hcq hlookup hpool =>
    rw [hregistered.lookup_head hcq] at hlookup
    cases hlookup
    exact h.deliver hresting hcq hpool
  | put hsub hpool | finished htodo hsub hpool =>
    unfold Balanced at h ⊢
    simp only [Core.Dispatch.taken_step hpool, Core.Dispatch.started_step hpool,
      Core.Dispatch.Event.item, Core.Dispatch.Event.starts, List.append_nil]
    exact h
  | @received i info rest pool hqueue hpool =>
    rcases hqueued i info (by rw [hqueue]; exact List.mem_cons_self ..) with ⟨cqe, rfl⟩
    exact h.receive hresting hqueue hpool

theorem balanced_of_reachable {lfd : Nat}
    (h : Reachable (restrict Succeeds (step syncCb)) (State.init n lfd) s) : Balanced s := by
  apply h.invariant Balanced (balanced_init n lfd)
  intro s event t hreach hs hstep
  have hregistered := registered_of_reachable hreach
  refine balanced_step hs (resting_of_reachable hreach.of_restrict) hregistered ?_
    (step_sound (restrict_eq_some.mp hstep).2)
  intro i info hinfo
  have hpool := Order.pool_reachable hreach.of_restrict
  have htaken := (Core.Dispatch.taken_of_queued hpool).2 i info hinfo
  have hposted : info ∈ s.posted.map answered := by
    rw [hregistered.posted]
    exact List.mem_append_left _ htaken
  rcases List.mem_map.mp hposted with ⟨cqe, -, heq⟩
  exact ⟨cqe, heq.symm⟩

end Steps

/-- All accepts that have been taken have been processed. -/
structure Processed (s : State n) : Prop where
  todo : ∀ g, ∀ request ∈ s.todo g, ¬ request.isAccept
  lock : ∀ g prepared, s.submitLock = some (g, .prepared prepared) → ¬ prepared.op.isAccept
  started : s.pool.started.countP isAccept = s.pool.taken.countP isAccept

theorem Processed.todoAccepts {s : State n} (h : Processed s) : todoAccepts s.todo = 0 := by
  apply Finset.sum_eq_zero
  intro g _
  exact List.countP_eq_zero.mpr (h.todo g)

theorem Processed.lockAccepts {s : State n} (h : Processed s) :
    lockAccepts s.submitLock = 0 := by
  unfold Accepts.lockAccepts
  split
  · rename_i g prepared hlock
    exact if_neg (h.lock g prepared hlock)
  · rfl
  · rfl
  · rfl

theorem processed_of_balanced [NeZero n] {syncCb : Bool} {lfd : Nat} {s : State n}
    (h : Reachable (step syncCb) (State.init n lfd) s) (hbalanced : Balanced s)
    (hfailed : s.pool.started.countP failed = 1) : Processed s ∧ acceptsPending s.ring = 0 := by
  have htaken := Core.Dispatch.countP_taken (Order.pool_reachable h) isAccept
  unfold Balanced at hbalanced
  have htodo : todoAccepts s.todo = 0 := by omega
  have hlock : lockAccepts s.submitLock = 0 := by omega
  refine ⟨⟨fun g => ?_, fun g prepared heq haccept => ?_, by omega⟩, by omega⟩
  · exact List.countP_eq_zero.mp (Finset.sum_eq_zero_iff.mp htodo g (Finset.mem_univ g))
  · rw [heq, lockAccepts, if_pos haccept] at hlock
    cases hlock

def startsFailed (syncCb : Bool) (s : State n) : Event n → Bool
  | .peek => syncCb && s.ring.cq.head?.any fun cqe => failed (answered cqe)
  | .receive i => (s.pool.queues i).head?.any failed
  | .prepare _ | .register _ | .submit _ | .submitError _ | .unregister | .complete .. | .report
  | .epollError | .signal | .receiveSignal | .stop | .put | .finish _ => false

/-- A call may end the process, and a completion that is posted while an event is pending has
no wakeup of its own. -/
def setback (syncCb : Bool) (s : State n) (event : Event n) : List Setback :=
  match event with
  | .prepare g => halted s.ring.sq.length ((s.todo g).take 1)
  | .complete .. => if s.epollEvent then [.lostWakeup] else []
  | .stop => [.stopped]
  | .peek | .receive _ => if startsFailed syncCb s event then [.failedAccept] else []
  | .register _ | .submit _ | .submitError _ | .unregister | .report | .epollError | .signal
  | .receiveSignal | .put | .finish _ => []

/-- The process runs and has not been told to stop, every completion has a wakeup to come, and
when the accepts that were taken have been processed, one is pending. -/
def Accepting (s : State n) : Prop :=
  s.panic = none ∧ s.sub ≠ .stopped ∧ s.ring.cq.length = wakeups s ∧
    (Processed s → acceptsPending s.ring = 1)

structure Steady (s : State n) : Prop where
  alive : s.panic = none
  going : s.sub ≠ .stopped
  awake : s.coalesced = []
  unfailed : s.pool.started.countP failed = 0
  balanced : Balanced s
  accounted : Accounted s

section Setbacks

variable {syncCb : Bool} {lfd : Nat} {s t : State n} {event : Event n}

theorem Steady.accepting (h : Steady s) : Accepting s := by
  refine ⟨h.alive, h.going, ?_, fun hprocessed => ?_⟩
  · have haccounted := h.accounted
    rw [Accounted, h.awake] at haccounted
    exact haccounted
  · have hbalanced := h.balanced
    have hstarted := hprocessed.started
    unfold Balanced at hbalanced
    rw [hprocessed.todoAccepts, hprocessed.lockAccepts, h.unfailed] at hbalanced
    omega

theorem halted_singleton {queued : Nat} {request : Request} :
    halted queued [request] = [] ↔ request.noBuffer = false ∧ queued < entries := by
  simp only [halted]
  split
  · simp [*]
  · split <;> simp [*]

variable [NeZero n]

theorem panic_step (h : Step syncCb s event t) (hnone : setback syncCb s event = []) :
    t.panic = s.panic := by
  cases h with
  | panicked htodo hstuck =>
    rw [setback, htodo, List.take_succ_cons, List.take_zero, halted_singleton] at hnone
    rcases hstuck with hprepare | hfull
    · rcases prepare_ok_iff.mpr hnone.1 with ⟨prepared, hok⟩
      cases hprepare.symm.trans hok
    · exact absurd hnone.2 (Nat.not_lt.mpr hfull)
  | prepared | registered | submitted | submitFailed | unregistered | completed | reported
  | epollFailed | signalled | signalReceived | stopped | peekedNone | missed | unknown | delivered
  | put | received | finished => rfl

theorem sub_step (h : Step syncCb s event t) (hnone : setback syncCb s event = [])
    (hgoing : s.sub ≠ .stopped) : t.sub ≠ .stopped := by
  cases h with
  | stopped => cases hnone
  | panicked | prepared | registered | submitted | submitFailed | unregistered | completed
  | reported | epollFailed | signalled | received => exact hgoing
  | signalReceived | peekedNone | missed | unknown | delivered | put => exact nofun
  | finished =>
    dsimp only
    split
    · exact nofun
    · exact hgoing

theorem coalesced_step (h : Step syncCb s event t) (hnone : setback syncCb s event = []) :
    t.coalesced = s.coalesced := by
  cases h with
  | completed =>
    have hevent : ¬s.epollEvent = true := fun htrue => by simp [setback, htrue] at hnone
    exact if_neg hevent
  | panicked | prepared | registered | submitted | submitFailed | unregistered | reported
  | epollFailed | signalled | signalReceived | stopped | peekedNone | missed | unknown | delivered
  | put | received | finished => rfl

theorem failed_step (hregistered : Registered s) (h : Step syncCb s event t) :
    t.pool.started.countP failed =
      s.pool.started.countP failed + if startsFailed syncCb s event then 1 else 0 := by
  cases h with
  | panicked | prepared | registered | submitted | submitFailed | unregistered | completed
  | reported | epollFailed | signalled | signalReceived | stopped => rfl
  | peekedNone hsub hcq => simp [startsFailed, hcq]
  | missed hsub hcq hlookup =>
    rw [hregistered.lookup_head hcq] at hlookup
    cases hlookup
  | unknown hsub hcq hlookup hinfo =>
    rw [hregistered.lookup_head hcq] at hlookup
    cases hlookup
    exact absurd hinfo (not_or.mpr (own_known _))
  | @delivered cqe rest info pool hsub hcq hlookup hpool =>
    rw [hregistered.lookup_head hcq] at hlookup
    cases hlookup
    have hstarted := Core.Dispatch.started_step hpool
    simp only [State.delivered, hstarted, List.countP_append, startsFailed, hcq, List.head?_cons,
      Option.any_some, Core.Dispatch.Event.starts]
    cases syncCb with
    | true => simp [List.countP_singleton, answered]
    | false => rfl
  | put hsub hpool | finished htodo hsub hpool =>
    simp [Core.Dispatch.started_step hpool, Core.Dispatch.Event.starts, startsFailed]
  | received hqueue hpool =>
    simp [Core.Dispatch.started_step hpool, Core.Dispatch.Event.starts, startsFailed, hqueue,
      List.countP_singleton]

theorem steady_step (hreach : Reachable (restrict Succeeds (step syncCb)) (State.init n lfd) s)
    (h : Steady s) (hstep : restrict Succeeds (step syncCb) s event = some t)
    (hnone : setback syncCb s event = []) : Steady t := by
  have hnext := hreach.tail hstep
  have hmove := step_sound (restrict_eq_some.mp hstep).2
  have hfailed := failed_step (registered_of_reachable hreach) hmove
  have hnot : ¬startsFailed syncCb s event = true := by
    intro hstarts
    cases event with
    | peek | receive => simp [setback, hstarts] at hnone
    | prepare | register | submit | submitError | unregister | complete | report | epollError
    | signal | receiveSignal | stop | put | finish => cases hstarts
  rw [if_neg hnot, h.unfailed] at hfailed
  exact ⟨(panic_step hmove hnone).trans h.alive, sub_step hmove hnone h.going,
    (coalesced_step hmove hnone).trans h.awake, hfailed, balanced_of_reachable hnext,
    accounted_of_reachable hnext.of_restrict⟩

theorem not_accepting_of_setback
    (hreach : Reachable (restrict Succeeds (step syncCb)) (State.init n lfd) s) (h : Steady s)
    (hstep : restrict Succeeds (step syncCb) s event = some t)
    (hsome : setback syncCb s event ≠ []) : ¬Accepting t := by
  have hnext := hreach.tail hstep
  have hmove := step_sound (restrict_eq_some.mp hstep).2
  rintro ⟨halive, hgoing, hawake, haccepting⟩
  have hfailed := failed_step (registered_of_reachable hreach) hmove
  have hstarts : startsFailed syncCb s event = true → False := by
    intro hstarts
    -- The one accept has failed, so that all accepts are processed and none is pending.
    rw [if_pos hstarts, h.unfailed] at hfailed
    rcases processed_of_balanced hnext.of_restrict (balanced_of_reachable hnext) hfailed with
      ⟨hprocessed, hzero⟩
    cases hzero.symm.trans (haccepting hprocessed)
  cases hmove with
  | panicked => cases halive
  | prepared hlock htodo hprepare hroom =>
    rw [setback, htodo, List.take_succ_cons, List.take_zero] at hsome
    exact hsome (halted_singleton.mpr ⟨prepare_ok_iff.mp ⟨_, hprepare⟩, hroom⟩)
  | @completed i sqe res hsqe =>
    have hevent : s.epollEvent = true := by
      by_contra hno
      exact hsome (if_neg hno)
    -- One event stands for two completions then, and only one of them will be taken for it.
    have haccounted := accounted_of_reachable hnext.of_restrict
    rw [Accounted, hawake] at haccounted
    have hlost : 0 < (s.completed i ⟨sqe, res⟩).coalesced.length := by
      simp only [State.completed, hevent, if_true, List.length_append, List.length_singleton]
      omega
    omega
  | stopped => exact hgoing rfl
  | peekedNone | missed | unknown | delivered | received =>
    apply hstarts
    by_contra hno
    exact hsome (if_neg hno)
  | registered | submitted | submitFailed | unregistered | reported | epollFailed | signalled
  | signalReceived | put | finished => exact hsome rfl

theorem accepting_iff {events : List (Event n)} {setbacks : List Setback}
    (hrun : run (record (setback syncCb) (restrict Succeeds (step syncCb)))
      (State.init n lfd, []) events = some (s, setbacks)) :
    Always (record (setback syncCb) (restrict Succeeds (step syncCb))) (State.init n lfd, [])
      events (fun t => Accepting t.1) ↔ setbacks = [] := by
  apply always_record_iff Steady hrun
  · exact ⟨rfl, nofun, rfl, rfl, balanced_init n lfd, rfl⟩
  · exact fun s hs => hs.accepting
  · exact fun s event t hreach hs hstep hnone => steady_step hreach hs hstep hnone
  · exact fun s event t hreach hs hstep hsome => not_accepting_of_setback hreach hs hstep hsome

end Setbacks

/-- In both servers: the accept is pending and seen to, all along a run, just if the run has had
no setback. In the second one, every submission is to succeed. -/
theorem accepting_iff_no_setback (lfd : Nat) :
    (∀ (n : Nat) (id : Fin n) (events : List (MultiEcho.Server.Event n))
      (s : MultiEcho.Server.State n) (setbacks : List Setback),
      run (record (MultiEcho.Accepts.setback id) MultiEcho.Server.step) (.init n lfd, []) events =
          some (s, setbacks) →
        (Always (record (MultiEcho.Accepts.setback id) MultiEcho.Server.step) (.init n lfd, [])
          events (fun t => MultiEcho.Accepts.Accepting id t.1) ↔ setbacks = [])) ∧
    ∀ (n : Nat) [NeZero n] (syncCb : Bool) (events : List (Event n)) (s : State n)
      (setbacks : List Setback),
      run (record (setback syncCb) (restrict Succeeds (step syncCb))) (State.init n lfd, [])
          events = some (s, setbacks) →
        (Always (record (setback syncCb) (restrict Succeeds (step syncCb))) (State.init n lfd, [])
          events (fun t => Accepting t.1) ↔ setbacks = []) :=
  ⟨fun _ id _ _ _ hrun => MultiEcho.Accepts.accepting_iff id hrun,
    fun _ _ _ _ _ _ hrun => accepting_iff hrun⟩

def done (s : State n) : Bool :=
  decide (∀ g, s.todo g = []) && s.submitLock.isNone && decide (s.pool.started = s.pool.taken)

theorem processed_of_done {s : State n} (h : done s) : Processed s := by
  simp only [done, Bool.and_eq_true, decide_eq_true_eq, Option.isNone_iff_eq_none] at h
  rcases h with ⟨⟨htodo, hlock⟩, hstarted⟩
  refine ⟨fun g => ?_, fun g prepared hsome => ?_, by rw [hstarted]⟩
  · rw [htodo g]
    exact fun _ => List.not_mem_nil.elim
  · rw [hlock] at hsome
    cases hsome

theorem accepting_one_client :
    (∃ s : MultiEcho.Server.State 2,
      run (record (MultiEcho.Accepts.setback 0) MultiEcho.Server.step) (.init 2 3, [])
        (MultiEcho.Server.oneConnect 0) = some (s, []) ∧
      Always (record (MultiEcho.Accepts.setback 0) MultiEcho.Server.step) (.init 2 3, [])
        (MultiEcho.Server.oneConnect 0) fun t => MultiEcho.Accepts.Accepting 0 t.1) ∧
    ∃ s : State 2,
      run (record (setback false) (restrict Succeeds (step false))) (State.init 2 3, [])
        oneConnect = some (s, []) ∧
      Always (record (setback false) (restrict Succeeds (step false))) (State.init 2 3, [])
        oneConnect fun t => Accepting t.1 := by
  constructor
  · have hview : (run (record (MultiEcho.Accepts.setback 0) MultiEcho.Server.step)
        (.init 2 3, []) (MultiEcho.Server.oneConnect 0)).map Prod.snd = some [] := by
      decide +kernel
    rcases Option.map_eq_some_iff.mp hview with ⟨⟨s, setbacks⟩, hrun, hnone⟩
    cases hnone
    exact ⟨s, hrun, ((accepting_iff_no_setback 3).1 2 0 _ s [] hrun).mpr rfl⟩
  · have hview : (run (record (setback false) (restrict Succeeds (step false)))
        (State.init 2 3, []) oneConnect).map Prod.snd = some [] := by
      decide +kernel
    rcases Option.map_eq_some_iff.mp hview with ⟨⟨s, setbacks⟩, hrun, hnone⟩
    cases hnone
    exact ⟨s, hrun, ((accepting_iff_no_setback 3).2 2 false _ s [] hrun).mpr rfl⟩

/-- The first accept fails with `EMFILE`: neither server has an accept any more. -/
theorem failed_accept_ends_accepting :
    (∃ s : MultiEcho.Server.State 1, Reachable MultiEcho.Server.step (.init 1 3) s ∧
      (s.loops 0).handled = [⟨⟨.accept 3, 1⟩, -24⟩] ∧ (s.loops 0).pc = .head ∧
      acceptsPending (s.loops 0).ring = 0) ∧
    ∃ s : State 2, Reachable (restrict Succeeds (step false)) (State.init 2 3) s ∧
      Processed s ∧ s.posted = [⟨⟨.accept 3, 1⟩, -24⟩] ∧ acceptsPending s.ring = 0 := by
  constructor
  · have hrun : (run MultiEcho.Server.step (.init 1 3)
        [⟨0, .start 1⟩, ⟨0, .submit 1⟩, ⟨0, .complete 0 (-24) []⟩, ⟨0, .handle []⟩]).map
        (fun s => ((s.loops 0).handled, (s.loops 0).pc, acceptsPending (s.loops 0).ring)) =
        some ([⟨⟨.accept 3, 1⟩, -24⟩], .head, 0) := by
      decide +kernel
    rcases Reachable.of_view hrun with ⟨s, hreach, hview⟩
    simp only [Prod.mk.injEq] at hview
    exact ⟨s, hreach, hview⟩
  · have hrun : (run (restrict Succeeds (step false)) (State.init 2 3)
        [.prepare none, .register 1, .submit 1, .complete 0 (-24), .report, .signal,
          .receiveSignal, .peek, .put, .receive 1, .finish (some 1)]).map
        (fun s => (done s, s.posted, acceptsPending s.ring)) =
        some (true, [⟨⟨.accept 3, 1⟩, -24⟩], 0) := by
      decide +kernel
    rcases Reachable.of_view hrun with ⟨s, hreach, hview⟩
    simp only [Prod.mk.injEq] at hview
    exact ⟨s, hreach, processed_of_done hview.1, hview.2⟩

end IoWrapper.EventfdEcho.Accepts
