import IoWrapper.EchoV1.Records
import IoWrapper.EchoV2.Server

/-! Apart from its buffers the server moves as the first version does, except that it
queues the recv of a new connection before the next accept. So a pending operation has its
record in `conns` to itself here too, and a completion is processed as what it is. -/
namespace IoWrapper.EchoV2.Records
open Core.Machine Core.Traffic Core.BufRing Server
open EchoV1.Server (Setup OpType ConnInfo)
open EchoV1.Records (Wired held opened_of_accept held_queue wired_of_empty)

def viewOp : Op → EchoV1.Server.Op
  | .accept fd => .accept fd
  | .recv fd len => .recv fd fd len
  | .send fd _ len => .send fd fd len

def viewSqe (sqe : Sqe) : EchoV1.Server.Sqe := ⟨viewOp sqe.op, sqe.fixedFile, sqe.userData⟩

def viewCqe (cqe : Cqe) : EchoV1.Server.Cqe := ⟨viewSqe cqe.entry, cqe.res⟩

def view (s : State) : EchoV1.Server.State :=
  { conns := s.conns
    registeredFiles := s.registeredFiles
    ring := ⟨s.sq.map viewSqe, s.inflight.map viewSqe, s.cq.map viewCqe⟩
    batch := (s.cq.take s.todo).map viewCqe
    fds := s.fds
    slots := s.slots
    files := s.files
    closed := s.closed
    pc := s.pc }

@[simp] theorem viewOp_fd (op : Op) : (viewOp op).fd = op.fd := by cases op <;> rfl

@[simp] theorem viewOp_type (op : Op) : (viewOp op).type = op.type := by cases op <;> rfl

section Moves

variable {u : Setup} {s : State} {cqe : Cqe}

theorem view_queue (connI : Nat) (op : Op) :
    view (s.queue u connI op) = (view s).queue u connI (viewOp op) := by
  simp [view, State.queue, EchoV1.Server.State.queue, IoRing.push, viewSqe]

theorem view_close (fd : Nat) : view (s.close fd) = (view s).close fd := rfl

theorem view_addBuf : view (s.addBuf u cqe) = view s := rfl

theorem view_submit (count : Nat) : view (s.submit count) =
    { view s with ring := (view s).ring.submit count, pc := .peeking } := by
  simp [view, State.submit, IoRing.submit, List.map_take, List.map_drop]

theorem view_next {rest : List Cqe} {todo : Nat} (hcq : s.cq = cqe :: rest)
    (htodo : s.todo = todo + 1) : view s.next =
      ({ view s with batch := (rest.take todo).map viewCqe } : EchoV1.Server.State).cqeSeen := by
  simp [view, State.next, EchoV1.Server.State.cqeSeen, IoRing.seen, hcq, htodo]

theorem view_batch {rest : List Cqe} {todo : Nat} (hcq : s.cq = cqe :: rest)
    (htodo : s.todo = todo + 1) :
    (view s).batch = viewCqe cqe :: (rest.take todo).map viewCqe := by
  simp [view, hcq, htodo]

theorem opened_view : EchoV1.Server.opened (viewCqe cqe) = opened cqe := by
  simp [EchoV1.Server.opened, opened, viewCqe, viewSqe]

theorem view_completed (i : Nat) :
    view (s.completed i cqe) = { (view s).completed i (viewCqe cqe) with
      batch := ((s.cq ++ [cqe]).take s.todo).map viewCqe } := by
  simp [view, State.completed, EchoV1.Server.State.completed, IoRing.complete, opened_view,
    List.eraseIdx_map]

theorem wired_registerOrNot {mid : State} {fd : Nat} (h : Wired u (view s))
    (hmid : mid = s ∨ mid = s.register fd) :
    Wired u (view mid) ∧ held (view mid) = held (view s) ∧ mid.fds = s.fds := by
  rcases hmid with rfl | rfl
  · exact ⟨h, rfl, rfl⟩
  · exact ⟨⟨h.batch, h.nodup, h.isOpen, h.userData, h.record, h.listens, h.inBounds⟩, rfl, rfl⟩

theorem conns_of_head {rest : List Cqe} (h : Wired u (view s)) (hcq : s.cq = cqe :: rest) :
    s.conns cqe.entry.userData = ⟨cqe.entry.op.fd, cqe.entry.op.type⟩ := by
  have hmem : viewCqe cqe ∈ (view s).ring.cq := by simp [view, hcq]
  have hconns := h.conns_userData (IoRing.mem_pending_of_cq hmem)
  simpa [viewCqe, viewSqe, view] using hconns

theorem wired_accepted {rest : List Cqe} {todo : Nat} {mid : State} (h : Wired u (view s))
    (hcq : s.cq = cqe :: rest) (htodo : s.todo = todo + 1)
    (htype : cqe.entry.op.type = .accept) (hpos : 0 ≤ cqe.res) (hlt : cqe.res < u.maxConnections)
    (hmid : mid = s.next ∨ mid = s.next.register cqe.res.toNat) :
    Wired u (view ((mid.queue u cqe.res.toNat (.recv cqe.res.toNat u.msgLen)).queue u
      u.sockListenFd (.accept u.sockListenFd))) := by
  have hhead := h.head (view_batch hcq htodo)
  have hnext := hhead.wired
  rw [← view_next hcq htodo] at hnext
  have hheld : held (view s.next) = held (view s).cqeSeen := by
    rw [view_next hcq htodo]
    rfl
  have htype' : (viewCqe cqe).entry.op.type = .accept := by simp [viewCqe, viewSqe, htype]
  have hlisten : cqe.entry.op.fd = u.sockListenFd := by
    have := h.listens _ hhead.pending htype'
    simpa [viewCqe, viewSqe] using this
  have hfd : (viewCqe cqe).entry.op.fd = u.sockListenFd := by
    simpa [viewCqe, viewSqe] using hlisten
  have hreturned := hhead.returned cqe.res.toNat (by
    rw [opened_of_accept htype' hpos]
    exact List.mem_singleton_self _)
  rcases wired_registerOrNot hnext hmid with ⟨hwired, hsame, hfds⟩
  have hread := hwired.queue (viewOp (.recv cqe.res.toNat u.msgLen))
    (by rw [hsame, hheld]; exact hreturned.1) (by
      rw [show (view mid).fds = s.next.fds from hfds]
      exact hreturned.2.2)
    nofun (by simp only [viewOp_fd]; exact (Int.toNat_lt hpos).mpr hlt)
  rw [view_queue, view_queue]
  apply hread.queue (viewOp (.accept u.sockListenFd))
  · rw [(held_queue _ _).mem_iff, List.mem_cons, hsame, hheld]
    rintro (heq | hin)
    · exact hreturned.2.1 (heq.symm.trans hfd.symm)
    · exact hhead.fd (hfd ▸ hin)
  · rw [show ((view mid).queue u _ _).fds = s.next.fds from hfds]
    exact hfd ▸ hhead.fdOpen
  · exact fun _ => rfl
  · exact hfd ▸ h.inBounds _ hhead.pending

theorem wired_answered {rest : List Cqe} {todo : Nat} {t : State} (h : Wired u (view s))
    (hcq : s.cq = cqe :: rest) (htodo : s.todo = todo + 1) (ht : Answered u s.next cqe t) :
    Wired u (view t) := by
  have hown := conns_of_head h hcq
  have hconns : s.next.conns cqe.entry.userData = ⟨cqe.entry.op.fd, cqe.entry.op.type⟩ := hown
  have hbatch := view_batch hcq htodo
  have hnext := view_next hcq htodo
  cases ht with
  | accepted htype hpos hlt hmid =>
    rw [hconns] at htype
    exact wired_accepted h hcq htodo htype hpos hlt hmid
  | hungUp htype hres =>
    rw [view_close, view_addBuf, hnext]
    exact h.answered hbatch (h.reaction hbatch (.hungUp htype hres))
  | received htype hres hlt =>
    rw [view_queue, view_addBuf, hnext]
    exact h.answered hbatch (h.reaction hbatch (.received htype hres hlt))
  | sent htype hlt =>
    rw [view_queue, hnext]
    exact h.answered hbatch (h.reaction hbatch (.sent htype hlt))
  | ignored htype =>
    rw [hconns] at htype
    cases hop : cqe.entry.op with
    | accept | recv | send => simp [hop, Op.type] at htype

theorem wired_completed {i : Nat} (h : Wired u (view s)) (hsqe : s.inflight[i]? = some cqe.entry)
    (hfree : -2 ^ 31 ≤ cqe.res ∧ cqe.res < 2 ^ 31 ∧ ∀ fd ∈ opened cqe, s.fds fd = none) :
    Wired u (view (s.completed i cqe)) := by
  have hinflight : (view s).ring.inflight[i]? = some (viewCqe cqe).entry := by
    simp [view, viewCqe, hsqe]
  have hpossible : (view s).Possible (viewCqe cqe) := by
    rw [EchoV1.Server.State.Possible, opened_view]
    exact hfree
  have hdone := h.completed hinflight hpossible
  rw [view_completed]
  refine ⟨?_, hdone.nodup, hdone.isOpen, hdone.userData, hdone.record, hdone.listens,
    hdone.inBounds⟩
  simpa [view, EchoV1.Server.State.completed] using
    (List.take_prefix s.todo (s.cq ++ [cqe])).map viewCqe

theorem wired_complete {i : Nat} {sqe : Sqe} {res : Int} {takes : Bool} (h : Wired u (view s))
    (hsqe : s.inflight[i]? = some sqe) (hpossible : s.Possible sqe res takes) :
    Wired u (view (s.complete i sqe res takes)) := by
  cases takes with
  | true => exact wired_completed (s := s.takeBuf) h hsqe hpossible.1
  | false => exact wired_completed h hsqe hpossible.1

theorem wired_step {t : State} {event : Event} (h : Wired u (view s))
    (hstep : step u s event = some t) : Wired u (view t) := by
  cases step_sound hstep with
  | @submitted count hpc =>
    have hmove : EchoV1.Server.step u (view s) (.submit count) = some (view (s.submit count)) := by
      rw [view_submit]
      exact if_pos hpc
    exact h.step hmove
  | failed hpc | stopped hpc hcq hstop | ended hpc htodo =>
    exact ⟨h.batch, h.nodup, h.isOpen, h.userData, h.record, h.listens, h.inBounds⟩
  | peeked hpc =>
    refine ⟨?_, h.nodup, h.isOpen, h.userData, h.record, h.listens, h.inBounds⟩
    exact (List.take_prefix _ s.cq).map viewCqe
  | answered hpc htodo hcq hok hanswered => exact wired_answered h hcq htodo hanswered
  | completed hsqe hpossible => exact wired_complete h hsqe hpossible

end Moves

theorem view_listening (u : Setup) :
    view (State.listening u) = EchoV1.Server.State.listening u := by
  unfold State.listening EchoV1.Server.State.listening
  split <;> rfl

theorem wired_init (u : Setup) : Wired u (view (State.init u)) := by
  have hblank : Wired u (view (State.listening u)) := by
    rw [view_listening]
    have hlistening := EchoV1.Records.listening_ring u
    exact wired_of_empty hlistening.1 hlistening.2.1
  unfold State.init
  cases hadd : addAccept u (State.listening u) u.sockListenFd with
  | ok s =>
    rcases addOp_eq_ok hadd with ⟨-, hlt, rfl⟩
    have hlistening := EchoV1.Records.listening_ring u
    rw [view_queue]
    apply hblank.queue (.accept u.sockListenFd)
    · rw [view_listening, EchoV1.Records.held_of_empty hlistening.1]
      exact List.not_mem_nil
    · rw [view_listening, EchoV1.Server.accept_fd, hlistening.2.2]
      simp
    · exact fun _ => rfl
    · rw [EchoV1.Server.accept_fd]
      omega
  | error stop =>
    exact ⟨hblank.batch, hblank.nodup, hblank.isOpen, hblank.userData, hblank.record,
      hblank.listens, hblank.inBounds⟩

theorem wired_of_reachable {u : Setup} {s : State} (h : Reachable (step u) (State.init u) s) :
    Wired u (view s) :=
  h.invariant (fun s => Wired u (view s)) (wired_init u) fun _ _ _ _ hs hstep =>
    wired_step hs hstep

theorem completion_finds_record {u : Setup} {s : State} {cqe : Cqe} {rest : List Cqe}
    (h : Reachable (step u) (State.init u) s) (hcq : s.cq = cqe :: rest) :
    s.conns cqe.entry.userData = ⟨cqe.entry.op.fd, cqe.entry.op.type⟩ :=
  conns_of_head (wired_of_reachable h) hcq

end IoWrapper.EchoV2.Records
