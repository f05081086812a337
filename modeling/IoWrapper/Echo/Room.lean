import IoWrapper.Echo.NoBufs

/-! Room in the submission queue. A pass queues at most two entries for a completion
that it processes, and the operations that can complete during a pass are those that
were pending when it began: the accept, and one for each connection. -/
namespace IoWrapper.Echo.Room
open Core.Machine Core.Pool Server Accounting Pending NoBufs

/-- The entries of the submission queue: 10240 are asked for, and the kernel rounds
the number up to a power of two. -/
def sqEntries : Nat := 16384

/-- At most 4096 accepted connections are open after the step, apart from those whose
accept has not been processed, and all queued entries are submitted. -/
def Bounded (s : State) (event : Event) : Prop :=
  (∀ t ∈ step s event, t.conns.length ≤ maxConnections + unanswered t) ∧
    match event with
    | .submit count => s.sq.length ≤ count
    | _ => True

instance (s : State) (event : Event) : Decidable (Bounded s event) :=
  match event with
  | .submit count => inferInstanceAs (Decidable (_ ∧ s.sq.length ≤ count))
  | .handle | .endPass | .issue | .provide _ | .take .. | .giveBack _ | .complete .. =>
    inferInstanceAs (Decidable (_ ∧ True))

def busy (op : Op) : Nat := isAccept op + onFd everyFd op

def outside (s : State) : Nat :=
  total (fun sqe => busy sqe.op) s.submitted + total (fun f => busy f.sqe.op) s.inflight +
    total (fun cqe => busy cqe.sqe.op) s.cq

theorem outside_add_queued (s : State) :
    outside s + total (fun sqe => busy sqe.op) s.sq = acceptsPending s + load s := by
  have hsqes : ∀ sqes : List Sqe, total (fun sqe => busy sqe.op) sqes =
      total (fun sqe => isAccept sqe.op) sqes + total (fun sqe => onFd everyFd sqe.op) sqes :=
    total_add _ _
  have hinflight : total (fun f => busy f.sqe.op) s.inflight =
      total (fun f => isAccept f.sqe.op) s.inflight +
        total (fun f => onFd everyFd f.sqe.op) s.inflight :=
    total_add _ _ _
  have hcq : total (fun cqe => busy cqe.sqe.op) s.cq =
      total (fun cqe => isAccept cqe.sqe.op) s.cq +
        total (fun cqe => onFd everyFd cqe.sqe.op) s.cq :=
    total_add _ _ _
  simp only [outside, acceptsPending, load, pendingOn, opWeigh, weigh, queue, hsqes, hinflight,
    hcq, total_append, Nat.add_zero]
  omega

def Spare (s : State) : Prop := s.sq.length + 2 * outside s ≤ 2 * (maxConnections + 1)

theorem spare_submitted {s : State} {count : Nat} (hs : Wired s) (hcount : s.sq.length ≤ count)
    (hload : load s ≤ maxConnections) :
    Spare { s with
      sq := s.sq.drop count
      submitted := s.submitted ++ s.sq.take count
      pc := .pass } := by
  have hall := outside_add_queued s
  rw [hs.accepts] at hall
  have houtside : outside { s with
      sq := s.sq.drop count
      submitted := s.submitted ++ s.sq.take count
      pc := .pass } = outside s + total (fun sqe => busy sqe.op) s.sq := by
    simp only [outside, List.take_of_length_le hcount, total_append]
    omega
  unfold Spare
  rw [houtside, List.drop_eq_nil_of_le hcount, List.length_nil]
  omega

theorem outside_answered {s : State} {cqe : Cqe} {rest : List Cqe} (hcq : s.cq = cqe :: rest)
    (more : List Sqe) : outside (s.answered rest more) + busy cqe.sqe.op = outside s := by
  simp only [outside, State.answered, hcq, total_cons]
  omega

theorem Spare.answered {s : State} {cqe : Cqe} {rest : List Cqe} (hs : Spare s)
    (hcq : s.cq = cqe :: rest) {more : List Sqe} (hmore : more.length ≤ 2 * busy cqe.sqe.op) :
    Spare (s.answered rest more) := by
  have hanswered := outside_answered hcq more
  unfold Spare at hs ⊢
  simp only [State.answered, List.length_append] at hanswered ⊢
  omega

theorem outside_post {s : State} {i : Nat} {f : Issued} (res : Int) (flags : Nat)
    (hf : s.inflight[i]? = some f) : outside (s.post i ⟨f.sqe, res, flags⟩) = outside s := by
  have herase := total_eraseIdx (fun f => busy f.sqe.op) hf
  simp only [outside, State.post, herase, total_append, total_cons, total_nil]
  omega

theorem outside_lent {s : State} {i : Nat} {sqe : Sqe} {held : Option Nat} (group : List Nat)
    (held' : Option Nat) (hf : s.inflight[i]? = some ⟨sqe, held⟩) :
    outside { s with
      group := group
      inflight := s.inflight.set i ⟨sqe, held'⟩ } = outside s := by
  have hset := total_set (fun f => busy f.sqe.op) ⟨sqe, held'⟩ hf
  simp only [outside] at hset ⊢
  omega

theorem Spare.of_same {s t : State} (hs : Spare s) (hsq : t.sq = s.sq)
    (houtside : outside t = outside s) : Spare t := by
  unfold Spare
  rw [hsq, houtside]
  exact hs

theorem Spare.close {s : State} (hs : Spare s) (fd : Nat) : Spare (s.close fd) := by
  rcases close_cases s fd with ⟨conns, closes, hclose⟩
  rw [hclose]
  exact hs

theorem Spare.step {s t : State} {event : Event} (hs : Spare s) (hbounded : Bounded s event)
    (h : Step s event t) (hwired : Wired s) (hload : load s ≤ maxConnections) : Spare t := by
  cases h with
  | submitted => exact spare_submitted hwired hbounded.2 hload
  | passEnded | exited => exact hs
  | handledProvide hpc hcq hop => exact hs.answered hcq (Nat.zero_le _)
  | handledAccept hpc hcq hop => exact hs.answered hcq (by simp [busy, hop, isAccept, onFd])
  | handledAcceptError hpc hcq hop =>
    exact hs.answered hcq (by simp [busy, hop, isAccept, onFd])
  | handledHangup hpc hcq hop =>
    exact (hs.answered hcq (by simp [busy, hop, isAccept, onFd, indicator, everyFd])).close _
  | handledRead hpc hcq hop =>
    exact hs.answered hcq (by simp [busy, hop, isAccept, onFd, indicator, everyFd])
  | handledWrite hpc hcq hop =>
    exact hs.answered hcq (by simp [busy, hop, isAccept, onFd, indicator, everyFd])
  | issued hsub =>
    refine hs.of_same rfl ?_
    simp only [outside, hsub, total_append, total_cons, total_nil]
    omega
  | provided hsub =>
    refine hs.of_same rfl ?_
    simp only [outside, hsub, total_append, total_cons, total_nil]
    omega
  | took hf => exact hs.of_same rfl (outside_lent _ _ hf)
  | gaveBack hf => exact hs.of_same rfl (outside_lent _ _ hf)
  | accepted hf => exact hs.of_same rfl (outside_post _ _ hf)
  | acceptFailed hf => exact hs.of_same rfl (outside_post _ _ hf)
  | received hf => exact hs.of_same rfl (outside_post _ _ hf)
  | recvFailed hf => exact hs.of_same rfl (outside_post _ _ hf)
  | sent hf => exact hs.of_same rfl (outside_post _ _ hf)

theorem spare_init (listenFd : Nat) : Spare (State.init listenFd) := by
  change 1 + 2 * 0 ≤ 2 * (maxConnections + 1)
  decide

theorem load_le {listenFd : Nat} {s : State}
    (h : Reachable (restrict Bounded step) (State.init listenFd) s) : load s ≤ maxConnections := by
  refine h.invariant (fun s => load s ≤ maxConnections) (Nat.zero_le _) ?_
  intro s event t hreach hs hstep
  have hboth := restrict_eq_some.mp hstep
  have hopen := hboth.1.1 t hboth.2
  have hload := load_eq (wired_of_reachable (hreach.of_restrict.tail hboth.2))
  omega

theorem spare_of_reachable {listenFd : Nat} {s : State}
    (h : Reachable (restrict Bounded step) (State.init listenFd) s) : Spare s := by
  refine h.invariant Spare (spare_init listenFd) ?_
  intro s event t hreach hs hstep
  have hboth := restrict_eq_some.mp hstep
  exact hs.step hboth.1 (step_sound hboth.2) (wired_of_reachable hreach.of_restrict)
    (load_le hreach)

theorem queued_length_le (listenFd : Nat) (cqe : Cqe) :
    (handleCqe listenFd cqe).queued.length ≤ 2 * busy cqe.sqe.op := by
  have hinfo : cqe.userData = cqe.sqe.op.connInfo := cqe.sqe.described
  by_cases hbufs : cqe.res = -enobufs
  · simp [handleCqe, hbufs]
  · cases hop : cqe.sqe.op with
    | provideBuffers bid len nr =>
      rw [hop] at hinfo
      simp only [handleCqe, hbufs, hinfo, Op.connInfo, if_false]
      split <;> simp
    | accept fd =>
      rw [hop] at hinfo
      simp only [handleCqe, hbufs, hinfo, Op.connInfo, if_false]
      split <;> simp [busy, isAccept, onFd]
    | recv fd len =>
      rw [hop] at hinfo
      simp only [handleCqe, hbufs, hinfo, Op.connInfo, if_false]
      split <;> simp [busy, isAccept, onFd, indicator, everyFd]
    | send fd bid len =>
      rw [hop] at hinfo
      simp [handleCqe, hbufs, hinfo, Op.connInfo, busy, isAccept, onFd, indicator, everyFd]

/-- With at most 4096 connections open, every `io_uring_get_sqe` that the processing of
a completion makes finds a free entry. -/
theorem getSqe_finds_entry {listenFd : Nat} {s : State}
    (h : Reachable (restrict Bounded step) (State.init listenFd) s) {cqe : Cqe} {rest : List Cqe}
    (hcq : s.cq = cqe :: rest) :
    ∀ k < (handleCqe s.listenFd cqe).queued.length, s.sq.length + k < sqEntries := by
  intro k hk
  have hspare := spare_of_reachable h
  have hqueued := queued_length_le s.listenFd cqe
  have hanswered := outside_answered hcq []
  unfold Spare maxConnections at hspare
  unfold sqEntries
  omega

theorem getSqe_finds_entry_one_client : ∃ s, Reachable (restrict Bounded step) (State.init 3) s ∧
    ∃ cqe rest, s.cq = cqe :: rest ∧ (handleCqe s.listenFd cqe).queued.length = 1 ∧
      s.sq.length + 0 < sqEntries := by
  have hrun : (run (restrict Bounded step) (State.init 3) (connect 5 ++ ([.take 0 7,
      .complete 0 2 [104, 105]] : List Event))).map (fun s => (s.listenFd, s.sq, s.cq)) =
      some (3, [], [⟨addSocketRead 5 groupId maxMessageLen iosqeBufferSelect, 2,
        bufferFlags 7⟩]) := by
    decide +kernel
  rcases Reachable.of_view hrun with ⟨s, hreach, hview⟩
  simp only [Prod.mk.injEq] at hview
  refine ⟨s, hreach, _, _, hview.2.2, ?_, ?_⟩
  · rw [hview.1]
    decide
  · apply getSqe_finds_entry hreach hview.2.2
    rw [hview.1]
    decide

end IoWrapper.Echo.Room
