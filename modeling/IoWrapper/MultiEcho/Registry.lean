import IoWrapper.Core.Registry
import IoWrapper.MultiEcho.Server

/-! The map of a ring. It has an entry for every operation that is queued, in flight, or
completed and not yet seen, and no other; so a completion finds its own `EventInfo`. -/
namespace IoWrapper.MultiEcho.Registry
open Core.Machine Core.Traffic Core.Registry GoEcho.Operations Server

abbrev Registered (l : Loop) (pending : List Sqe) : Prop :=
  Registers Sqe.userData (fun sqe => sqe.op.info) l.mapEvent pending

section Loops

variable {l next : Loop} {buffs : Nat}

theorem produce_registered {request : Request} {userData : Nat} {pending : List Sqe}
    (h : Registered l pending) (hproduce : l.produce buffs request userData = .ok next) :
    ∃ sqe, next.ring = l.ring.push sqe ∧ Registered next (sqe :: pending) := by
  rcases produce_eq_ok hproduce with ⟨prepared, hprepared, hnew, rfl⟩
  refine ⟨⟨prepared.op, userData⟩, rfl, ?_⟩
  unfold Registered Loop.produced
  rw [(prepare_eq_ok hprepared).2.1]
  exact h.insert (a := ⟨prepared.op, userData⟩) hnew

theorem produceAll_registered {requests : List Request} {addresses : List Nat} {cqe : Cqe}
    {rest : List Cqe} (hcq : l.ring.cq = cqe :: rest) (h : Registered l l.ring.seen.pending)
    (hproduce : l.produceAll buffs requests addresses = .ok next) :
    next.ring.cq = cqe :: rest ∧ Registered next next.ring.seen.pending := by
  apply produceEach_invariant
    (fun l => l.ring.cq = cqe :: rest ∧ Registered l l.ring.seen.pending) hproduce ⟨hcq, h⟩
  intro l request userData next _ hl hproduce
  rcases produce_registered hl.2 hproduce with ⟨sqe, hring, hnext⟩
  rw [hring]
  exact ⟨hl.1, hnext.perm (IoRing.pending_push l.ring.seen sqe)⟩

theorem registered_act {id : Nat} {sh sh' : Shared} {action : Action} {l' : Loop}
    (h : Registered l l.ring.pending) (hact : Acts id sh l action sh' l') :
    Registered l' l'.ring.pending := by
  cases hact with
  | started hpc hproduce =>
    rcases produce_registered h hproduce with ⟨sqe, hring, hnext⟩
    have hpending := IoRing.pending_push l.ring sqe
    rw [← hring] at hpending
    exact hnext.perm hpending
  | startPanicked | unknown | unsupported | panicked | waitFailed => exact h
  | submitted | submitFailed => exact h.perm (IoRing.pending_submit _ _)
  | @handled _ cqe _ _ _ _ hpc hcq hlookup hreact hproduce =>
    have hdeleted : Registered (l.delete cqe.entry.userData) l.ring.seen.pending :=
      (h.perm (IoRing.pending_seen hcq).symm).erase
    exact (produceAll_registered (l := l.delete _) hcq hdeleted hproduce).2
  | completed hsqe hdata =>
    exact h.perm (IoRing.pending_complete hsqe)

theorem registered_of_reachable {n lfd : Nat} {s : State n}
    (h : Reachable step (State.init n lfd) s) (id : Fin n) :
    Registered (s.loops id) (s.loops id).ring.pending :=
  loop_invariant (fun l => Registered l l.ring.pending) h registers_nil
    (fun _ _ _ _ _ _ hl hact => registered_act hl hact) id

theorem lookup_head {cqe : Cqe} {rest : List Cqe} (h : Registered l l.ring.pending)
    (hcq : l.ring.cq = cqe :: rest) :
    l.mapEvent.lookup cqe.entry.userData = some cqe.entry.op.info :=
  h.found _ (IoRing.mem_pending_of_cq (by rw [hcq]; exact List.mem_cons_self ..))

def answers (lfd : Nat) (res : Int) (request : Request) : List Request :=
  calls (react lfd) request res

section Answers

variable {lfd fd : Nat} {res : Int}

theorem answers_failed (h : res < 0) : answers lfd res (.accept fd) = [] := calls_eq (if_pos h)

theorem answers_accepted (h : 0 ≤ res) :
    answers lfd res (.accept fd) = [.accept lfd, .recv res.toNat] :=
  calls_eq (if_neg (Int.not_lt.mpr h))

theorem answers_received (h : 0 < res) : answers lfd res (.recv fd) = [.send fd res.toNat] :=
  calls_eq (if_neg (Int.not_le.mpr h))

theorem answers_unread (h : res ≤ 0) :
    answers lfd res (.recv fd) = if res ≠ -ebadf then [.close fd] else [] := by
  apply calls_eq
  simp only [react, Request.info, if_pos h]
  split <;> rfl

theorem react_info (lfd : Nat) (op : Op) (res : Int) :
    react lfd op.info res = .ok (answers lfd res op.request) := by
  have hok : ∃ requests, react lfd op.request.info res = .ok requests := by
    cases op.request with
    | accept fd =>
      simp only [react, Request.info]
      split <;> exact ⟨_, rfl⟩
    | recv fd =>
      simp only [react, Request.info]
      split
      · split <;> exact ⟨_, rfl⟩
      · exact ⟨_, rfl⟩
    | send | close => exact ⟨_, rfl⟩
  rcases hok with ⟨requests, hreact⟩
  rw [Op.info, hreact, answers, calls_eq hreact]

theorem react_head {cqe : Cqe} {rest : List Cqe} {eventInfo : EventInfo}
    (h : Registered l l.ring.pending) (hcq : l.ring.cq = cqe :: rest)
    (hlookup : l.mapEvent.lookup cqe.entry.userData = some eventInfo) :
    react lfd eventInfo cqe.res = .ok (answers lfd cqe.res cqe.entry.op.request) := by
  rw [lookup_head h hcq] at hlookup
  cases hlookup
  exact react_info lfd cqe.entry.op cqe.res

end Answers

structure Turned (lfd buffs : Nat) (l : Loop) (cqe : Cqe) (sqes : List Sqe) (l' : Loop) :
    Prop where
  requests : sqes.map (fun sqe => sqe.op.request) = answers lfd cqe.res cqe.entry.op.request
  bufs : ∀ sqe ∈ sqes, ∀ buf ∈ sqe.op.buf, buf = ⟨buffs, sqe.op.info.cfd⟩
  ring : l'.ring = (l.ring.pushAll sqes).seen
  queued : l'.queued = l.queued ++ sqes.map Sqe.op
  handled : l'.handled = l.handled ++ [cqe]
  pc : l'.pc = .head

theorem turned_of_handled {lfd : Nat} {addresses : List Nat} {cqe : Cqe} {rest : List Cqe}
    {eventInfo : EventInfo} {requests : List Request} (h : Registered l l.ring.pending)
    (hcq : l.ring.cq = cqe :: rest)
    (hlookup : l.mapEvent.lookup cqe.entry.userData = some eventInfo)
    (hreact : react lfd eventInfo cqe.res = .ok requests)
    (hproduce : (l.delete cqe.entry.userData).produceAll buffs requests addresses = .ok next) :
    ∃ sqes, Turned lfd buffs l cqe sqes
      { next with ring := next.ring.seen, pc := .head, handled := next.handled ++ [cqe] } := by
  cases (react_head h hcq hlookup).symm.trans hreact
  rcases produceAll_queued hproduce with ⟨sqes, hqueued⟩
  refine ⟨sqes, hqueued.requests, hqueued.bufs, ?_, hqueued.queued, ?_, rfl⟩
  · dsimp only
    rw [hqueued.ring]
    rfl
  · dsimp only
    rw [hqueued.handled]
    rfl

theorem produce_ne_unsupported {request : Request} {userData : Nat} :
    l.produce buffs request userData ≠ .error (.panic .unsupportedType) := by
  unfold Loop.produce
  split
  · rename_i panic hpanic
    intro h
    cases h
    exact prepare_ne_unsupported hpanic
  · split
    · split <;> simp
    · simp

theorem produceAll_ne_unsupported {requests : List Request} {addresses : List Nat} :
    l.produceAll buffs requests addresses ≠ .error (.panic .unsupportedType) := by
  intro h
  rcases produceEach_panic h with ⟨l, request, userData, hproduce⟩
  exact produce_ne_unsupported hproduce

theorem pc_act {id : Nat} {sh sh' : Shared} {action : Action} {l' : Loop}
    (h : Registered l l.ring.pending) (hpc : l.pc ≠ .empty) (hact : Acts id sh l action sh' l') :
    l'.pc ≠ .empty := by
  cases hact with
  | unknown _ hcq hlookup =>
    rw [lookup_head h hcq] at hlookup
    cases hlookup
  | startPanicked | unsupported | panicked | completed => exact hpc
  | started | submitted | submitFailed | waitFailed | handled => simp

theorem panic_act {id : Nat} {sh sh' : Shared} {action : Action} {l' : Loop}
    (h : Registered l l.ring.pending) (hpanic : sh.panic = none)
    (hact : Acts id sh l action sh' l') : sh'.panic ≠ some .unsupportedType := by
  cases hact with
  | unsupported _ hcq hlookup hreact =>
    cases (react_head h hcq hlookup).symm.trans hreact
  | startPanicked _ hproduce =>
    intro heq
    cases heq
    exact produce_ne_unsupported hproduce
  | panicked _ _ _ _ hproduce =>
    intro heq
    cases heq
    exact produceAll_ne_unsupported hproduce
  | started | submitted | submitFailed | waitFailed | unknown | handled | completed =>
    simp [hpanic]

end Loops

/-- The keys of the map are the `user_data` of the pending operations, all different and
each with the type and the descriptor of its operation. No completion is without its entry
and none is of an unsupported type. -/
theorem map_is_pending {n lfd : Nat} {s : State n} (h : Reachable step (State.init n lfd) s)
    (id : Fin n) :
    (∀ userData, userData ∈ (s.loops id).mapEvent ↔
      userData ∈ (s.loops id).ring.pending.map Sqe.userData) ∧
      ((s.loops id).ring.pending.map Sqe.userData).Nodup ∧
      (∀ sqe ∈ (s.loops id).ring.pending,
        (s.loops id).mapEvent.lookup sqe.userData = some sqe.op.info) ∧
      (s.loops id).pc ≠ .empty ∧ s.shared.panic ≠ some .unsupportedType := by
  have hregistered := registered_of_reachable h id
  refine ⟨hregistered.mem_iff, hregistered.nodup, hregistered.found, ?_, ?_⟩
  · exact (loop_invariant (fun l => Registered l l.ring.pending ∧ l.pc ≠ .empty) h
      ⟨registers_nil, by simp [Loop.created]⟩
      (fun _ _ _ _ _ _ hl hact => ⟨registered_act hl.1 hact, pc_act hl.1 hl.2 hact⟩) id).2
  · apply h.invariant (fun s => s.shared.panic ≠ some .unsupportedType) (by simp [State.init])
    intro s event t hreach _ hstep
    rcases step_sound hstep with ⟨hpanic, sh, l, hacts, rfl⟩
    exact panic_act (registered_of_reachable hreach event.id) hpanic hacts

theorem map_is_pending_one_message :
    ∃ s : State 2, Reachable step (State.init 2 3) s ∧
      (s.loops 0).mapEvent.keys = [3, 2] ∧ (s.loops 1).mapEvent.keys = [1] ∧
      ∀ id userData, userData ∈ (s.loops id).mapEvent ↔
        userData ∈ (s.loops id).ring.pending.map Sqe.userData := by
  have hrun : (run step (State.init 2 3)
      (oneConnect 0 ++ ([⟨0, .complete 1 3 [104, 105, 10]⟩, ⟨1, .start 1⟩] : List (Event 2)))).map
      (fun s => ((s.loops 0).mapEvent.keys, (s.loops 1).mapEvent.keys)) =
      some ([3, 2], [1]) := by
    decide +kernel
  rcases Reachable.of_view hrun with ⟨s, hreach, hview⟩
  simp only [Prod.mk.injEq] at hview
  exact ⟨s, hreach, hview.1, hview.2, fun id => (map_is_pending hreach id).1⟩

end IoWrapper.MultiEcho.Registry
