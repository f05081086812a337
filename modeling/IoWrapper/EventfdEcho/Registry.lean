import IoWrapper.Core.Registry
import IoWrapper.EventfdEcho.Server

/-! The map of the server. An `EventInfo` is put there before its entry can reach the kernel,
and taken out with the completion; if all submissions succeed, the map has an entry for every
pending operation and no other. A submission that fails takes the `EventInfo` out and leaves
the entry in the queue. -/
namespace IoWrapper.EventfdEcho.Registry
open Core.Machine Core.Traffic Core.Registry GoEcho.Operations Server

/-- The `EventInfo` of an operation. -/
def own (op : Op) : Server.EventInfo := connInfo ⟨op, op.info⟩

/-- The `EventInfo` with which the callback of a completion is to be called. -/
def answered (cqe : Cqe) : Server.EventInfo := { own cqe.entry.op with res := cqe.res }

/-- No call of `Submit` returns an error. -/
def Succeeds {n : Nat} (_ : State n) : Event n → Prop
  | .submitError _ => False
  | _ => True

instance {n : Nat} (s : State n) : (event : Event n) → Decidable (Succeeds s event)
  | .submitError _ => isFalse id
  | .prepare _ | .register _ | .submit _ | .unregister | .complete .. | .report | .epollError
  | .signal | .receiveSignal | .stop | .peek | .put | .receive _ | .finish _ => isTrue trivial

variable {n : Nat} {s t : State n}

/-- The map files the pending operations, and all completions that have been posted have been
taken, in order, or are still in the queue. -/
structure Registered (s : State n) : Prop where
  map : Registers Sqe.userData (fun sqe => own sqe.op) s.mapEvent s.ring.pending
  prepared : ∀ g prepared, s.submitLock = some (g, .prepared prepared) →
    prepared.info = prepared.op.info
  unfailed : ∀ g userData, s.submitLock ≠ some (g, .failed userData)
  posted : s.posted.map answered = s.pool.taken ++ s.ring.cq.map answered
  missed : s.missed = []

theorem registered_init (n lfd : Nat) : Registered (State.init n lfd) :=
  ⟨registers_nil, nofun, nofun, rfl, rfl⟩

theorem Registered.lookup_head {cqe : Cqe} {rest : List Cqe} (h : Registered s)
    (hcq : s.ring.cq = cqe :: rest) :
    s.mapEvent.lookup cqe.entry.userData = some (own cqe.entry.op) :=
  h.map.found _ (IoRing.mem_pending_of_cq (by rw [hcq]; exact List.mem_cons_self ..))

theorem own_known (op : Op) : (own op).cb ≠ none ∧ (own op).etype ≠ .unknow := by
  cases op with
  | accept | recv | send | close => exact ⟨nofun, nofun⟩

theorem Registered.register {g : Goroutine n} {prepared : Prepared} {userData : Nat}
    (h : Registered s) (hlock : s.submitLock = some (g, .prepared prepared))
    (hnew : userData ∉ s.mapEvent) : Registered (s.registered g prepared userData) := by
  refine ⟨?_, nofun, nofun, h.posted, h.missed⟩
  have hinfo : connInfo prepared = own prepared.op := by
    unfold own
    rw [← h.prepared g prepared hlock]
  have hpending := IoRing.pending_push s.ring ⟨prepared.op, userData⟩
  unfold State.registered
  dsimp only
  rw [hinfo]
  exact (h.map.insert (a := ⟨prepared.op, userData⟩) hnew).perm hpending

theorem Registered.complete {i : Nat} {sqe : Sqe} {res : Int} (h : Registered s)
    (hsqe : s.ring.inflight[i]? = some sqe) : Registered (s.completed i ⟨sqe, res⟩) := by
  refine ⟨h.map.perm (IoRing.pending_complete hsqe), h.prepared, h.unfailed, ?_, h.missed⟩
  simp only [State.completed, IoRing.complete_cq, List.map_append, h.posted, List.append_assoc]

variable [NeZero n] {syncCb : Bool}

theorem Registered.deliver {cqe : Cqe} {rest : List Cqe} {info : Server.EventInfo}
    {pool : Core.Dispatch.State Server.EventInfo (Fin n)} (h : Registered s)
    (hcq : s.ring.cq = cqe :: rest) (hlookup : s.mapEvent.lookup cqe.entry.userData = some info)
    (hpool : Core.Dispatch.step syncCb dispatchChSize (index n) s.pool
      (.take { info with res := cqe.res }) = some pool) :
    Registered (s.delivered syncCb cqe { info with res := cqe.res } pool) := by
  rw [h.lookup_head hcq] at hlookup
  cases hlookup
  refine ⟨(h.map.perm (IoRing.pending_seen hcq).symm).erase, h.prepared, h.unfailed, ?_, h.missed⟩
  simp only [State.delivered, IoRing.seen_cq]
  rw [h.posted, Core.Dispatch.taken_step hpool, hcq, List.map_cons, List.tail_cons,
    List.append_assoc]
  rfl

theorem registered_step {event : Event n} (h : Registered s) (hsucceeds : Succeeds s event)
    (hstep : Step syncCb s event t) : Registered t := by
  cases hstep with
  | panicked | reported | epollFailed | signalled | signalReceived | stopped | peekedNone =>
    exact ⟨h.map, h.prepared, h.unfailed, h.posted, h.missed⟩
  | prepared hlock htodo hprepare =>
    refine ⟨h.map, ?_, nofun, h.posted, h.missed⟩
    intro g prepared heq
    cases heq
    exact (prepare_eq_ok hprepare).2.1
  | registered hlock hnew => exact h.register hlock hnew
  | submitted =>
    exact ⟨h.map.perm (IoRing.pending_submit s.ring _), nofun, nofun, h.posted, h.missed⟩
  | submitFailed => exact hsucceeds.elim
  | unregistered hlock => exact absurd hlock (h.unfailed _ _)
  | completed hsqe => exact h.complete hsqe
  | missed hsub hcq hlookup =>
    rw [h.lookup_head hcq] at hlookup
    cases hlookup
  | unknown hsub hcq hlookup hinfo =>
    rw [h.lookup_head hcq] at hlookup
    cases hlookup
    exact absurd hinfo (not_or.mpr (own_known _))
  | delivered hsub hcq hlookup hpool => exact h.deliver hcq hlookup hpool
  | put _ hpool | received _ hpool | finished _ _ hpool =>
    refine ⟨h.map, h.prepared, h.unfailed, ?_, h.missed⟩
    dsimp only
    rw [Core.Dispatch.taken_step hpool]
    exact h.posted.trans (by simp [Core.Dispatch.Event.item])

theorem registered_of_reachable {lfd : Nat}
    (h : Reachable (restrict Succeeds (step syncCb)) (State.init n lfd) s) : Registered s := by
  apply h.invariant Registered (registered_init n lfd)
  intro s event t _ hs hstep
  rcases restrict_eq_some.mp hstep with ⟨hsucceeds, hact⟩
  exact registered_step hs hsucceeds (step_sound hact)

/-- If every submission succeeds, the operations that have reached the kernel have their own
`EventInfo` in the map until their completion is taken, each completion goes once to its own
callback, and none is without its entry. -/
theorem registered_until_taken {lfd : Nat}
    (h : Reachable (restrict Succeeds (step syncCb)) (State.init n lfd) s) :
    (∀ sqe ∈ s.ring.inflight ++ s.ring.cq.map Completion.entry,
      s.mapEvent.lookup sqe.userData = some (own sqe.op)) ∧
      s.posted.map answered = s.pool.taken ++ s.ring.cq.map answered ∧ s.missed = [] := by
  have hregistered := registered_of_reachable h
  refine ⟨?_, hregistered.posted, hregistered.missed⟩
  intro sqe hsqe
  apply hregistered.map.found
  rw [IoRing.pending, IoRing.uncompleted, List.append_assoc]
  exact List.mem_append_right _ hsqe

theorem registered_until_taken_one_message :
    ∃ s : State 2, Reachable (restrict Succeeds (step false)) (State.init 2 3) s ∧
      s.ring.cq.map Completion.res = [3] ∧
      s.posted.map answered = s.pool.taken ++ s.ring.cq.map answered := by
  have hrun : (run (restrict Succeeds (step false)) (State.init 2 3)
      (oneConnect ++ ([.complete 1 3] : List (Event 2)))).map
      (fun s => s.ring.cq.map Completion.res) = some [3] := by
    decide +kernel
  rcases Reachable.of_view hrun with ⟨s, hreach, hview⟩
  exact ⟨s, hreach, hview, (registered_until_taken hreach).2.1⟩

/-- The submission of the receive fails. The receive stays queued and goes to the kernel with
the accept that another connection submits, but it is not in the map any more, and its
completion is dropped. -/
theorem failed_submit_is_missed :
    ∃ s : State 2, Reachable (step false) (State.init 2 3) s ∧
      s.missed = [⟨⟨.recv 5 ⟨1, 5⟩ 2048, 3⟩, 3⟩] := by
  have hrun : (run (step false) (State.init 2 3)
      [.prepare none, .register 1, .submit 1, .complete 0 5, .report, .signal, .receiveSignal,
        .peek, .put, .receive 1, .prepare (some (some 1)), .register 2, .submit 1,
        .prepare (some (some 1)), .register 3, .submitError 0, .unregister, .finish (some 1),
        .complete 0 6, .report, .signal, .receiveSignal, .peek, .put, .receive 1,
        .prepare (some (some 1)), .register 4, .submit 2, .complete 0 3, .report, .signal,
        .receiveSignal, .peek]).map
      (fun s => s.missed) = some [⟨⟨.recv 5 ⟨1, 5⟩ 2048, 3⟩, 3⟩] := by
    decide +kernel
  rcases Reachable.of_view hrun with ⟨s, hreach, hview⟩
  exact ⟨s, hreach, hview⟩

end IoWrapper.EventfdEcho.Registry
