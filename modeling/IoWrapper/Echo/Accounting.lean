import IoWrapper.Echo.Server

/-! Accounting for the echo server. Whatever is counted, an operation is counted
once, where it is: queued, in flight or completed. The laws say what each move
of an operation does to a count. -/
namespace IoWrapper.Echo.Accounting
open Core.Pool Server

def queue (s : State) : List Sqe := s.submitted ++ s.sq

variable (queued : Sqe → Nat) (issued : Issued → Nat) (completed : Cqe → Nat)

def weigh (s : State) : Nat :=
  total queued (queue s) + total issued s.inflight + total completed s.cq

theorem queue_submitted (s : State) (count : Nat) (pc : Pc) :
    queue { s with
      sq := s.sq.drop count
      submitted := s.submitted ++ s.sq.take count
      pc := pc } = queue s := by
  simp [queue]

theorem queue_answered (s : State) (rest : List Cqe) (more : List Sqe) :
    queue (s.answered rest more) = queue s ++ more := by
  simp [queue, State.answered]

theorem close_cases (s : State) (fd : Nat) :
    ∃ conns closes, s.close fd = { s with conns := conns, closes := closes } := by
  unfold State.close
  split
  · exact ⟨_, _, rfl⟩
  · exact ⟨_, _, rfl⟩

@[simp] theorem answered_group (s : State) (rest : List Cqe) (more : List Sqe) :
    (s.answered rest more).group = s.group := rfl

@[simp] theorem post_group (s : State) (i : Nat) (cqe : Cqe) :
    (s.post i cqe).group = s.group := rfl

@[simp] theorem close_group (s : State) (fd : Nat) : (s.close fd).group = s.group := by
  rcases close_cases s fd with ⟨conns, closes, hclose⟩
  rw [hclose]

@[simp] theorem close_cq (s : State) (fd : Nat) : (s.close fd).cq = s.cq := by
  rcases close_cases s fd with ⟨conns, closes, hclose⟩
  rw [hclose]

@[simp] theorem queue_close (s : State) (fd : Nat) : queue (s.close fd) = queue s := by
  rcases close_cases s fd with ⟨conns, closes, hclose⟩
  rw [hclose]
  rfl

theorem weigh_submitted (s : State) (count : Nat) (pc : Pc) :
    weigh queued issued completed { s with
      sq := s.sq.drop count
      submitted := s.submitted ++ s.sq.take count
      pc := pc } = weigh queued issued completed s := by
  unfold weigh
  rw [queue_submitted]

theorem weigh_answered {s : State} {cqe : Cqe} {rest : List Cqe} (hcq : s.cq = cqe :: rest)
    (more : List Sqe) :
    weigh queued issued completed (s.answered rest more) + completed cqe =
      weigh queued issued completed s + total queued more := by
  unfold weigh
  rw [queue_answered, total_append, hcq, total_cons]
  simp only [State.answered]
  omega

@[simp] theorem weigh_close (s : State) (fd : Nat) :
    weigh queued issued completed (s.close fd) = weigh queued issued completed s := by
  rcases close_cases s fd with ⟨conns, closes, hclose⟩
  rw [hclose]
  rfl

theorem weigh_issued {s : State} {sqe : Sqe} {rest : List Sqe}
    (hsub : s.submitted = sqe :: rest) :
    weigh queued issued completed { s with
      submitted := rest
      inflight := s.inflight ++ [⟨sqe, none⟩] } + queued sqe =
      weigh queued issued completed s + issued ⟨sqe, none⟩ := by
  simp only [weigh, queue, hsub, total_append, total_cons, total_nil]
  omega

theorem weigh_provided {s : State} {sqe : Sqe} {rest : List Sqe} (group : List Nat) (cqe : Cqe)
    (hsub : s.submitted = sqe :: rest) :
    weigh queued issued completed { s with
      submitted := rest
      group := group
      cq := s.cq ++ [cqe] } + queued sqe =
      weigh queued issued completed s + completed cqe := by
  simp only [weigh, queue, hsub, total_append, total_cons, total_nil]
  omega

theorem weigh_lent {s : State} {i : Nat} {before : Issued} (group : List Nat) (after : Issued)
    (hf : s.inflight[i]? = some before) :
    weigh queued issued completed { s with
      group := group
      inflight := s.inflight.set i after } + issued before =
      weigh queued issued completed s + issued after := by
  have hset := total_set issued after hf
  simp only [weigh, queue] at hset ⊢
  omega

theorem weigh_post {s : State} {i : Nat} {f : Issued} (cqe : Cqe)
    (hf : s.inflight[i]? = some f) :
    weigh queued issued completed (s.post i cqe) + issued f =
      weigh queued issued completed s + completed cqe := by
  have herase := total_eraseIdx issued hf
  simp only [weigh, queue, State.post, total_append, total_cons, total_nil]
  omega

theorem cq_step {s t : State} {event : Event} (good : Cqe → Prop) (hs : ∀ cqe ∈ s.cq, good cqe)
    (h : Step s event t) (hother : ∀ cqe, cqe.userData.type ≠ .read → good cqe)
    (hreceived : ∀ sqe res bid, res ≠ -enobufs → res ≤ maxMessageLen →
      good ⟨sqe, res, bufferFlags bid⟩)
    (hfailed : ∀ i fd len sqe res data, event = .complete i res data →
      s.inflight[i]? = some ⟨sqe, none⟩ → sqe.op = .recv fd len → res ≤ 0 →
      (res = -enobufs → s.group = []) → good ⟨sqe, res, 0⟩) :
    ∀ cqe ∈ t.cq, good cqe := by
  have hrest : ∀ {cqe rest}, s.cq = cqe :: rest → ∀ own ∈ rest, good own := by
    intro cqe rest hcq own hown
    exact hs own (by rw [hcq]; exact List.mem_cons_of_mem _ hown)
  have hposted : ∀ cqe, good cqe → ∀ own ∈ s.cq ++ [cqe], good own := by
    intro cqe hcqe own hown
    rcases List.mem_append.mp hown with hown | hown
    · exact hs own hown
    · rw [List.mem_singleton.mp hown]
      exact hcqe
  cases h with
  | submitted | passEnded | exited | issued | took | gaveBack => exact hs
  | handledProvide hpc hcq | handledAccept hpc hcq | handledAcceptError hpc hcq
  | handledRead hpc hcq | handledWrite hpc hcq => exact hrest hcq
  | handledHangup hpc hcq =>
    rw [close_cq]
    exact hrest hcq
  | provided hsub hop | accepted hf hop | acceptFailed hf hop | sent hf hop =>
    refine hposted _ (hother _ ?_)
    rw [Cqe.userData, userData_of_op hop]
    exact OpType.noConfusion
  | received hf hop hbufs hdata hlen => exact hposted _ (hreceived _ _ _ hbufs (by omega))
  | recvFailed hf hop hres hbufs => exact hposted _ (hfailed _ _ _ _ _ _ rfl hf hop hres hbufs)

section Operations

variable (weight : Op → Nat) (extra : Cqe → Nat)

def opWeigh (s : State) : Nat :=
  weigh (fun sqe => weight sqe.op) (fun f => weight f.sqe.op)
    (fun cqe => weight cqe.sqe.op + extra cqe) s

theorem opWeigh_submitted (s : State) (count : Nat) (pc : Pc) :
    opWeigh weight extra { s with
      sq := s.sq.drop count
      submitted := s.submitted ++ s.sq.take count
      pc := pc } = opWeigh weight extra s :=
  weigh_submitted _ _ _ s count pc

theorem opWeigh_answered {s : State} {cqe : Cqe} {rest : List Cqe} (hcq : s.cq = cqe :: rest)
    (more : List Sqe) :
    opWeigh weight extra (s.answered rest more) + (weight cqe.sqe.op + extra cqe) =
      opWeigh weight extra s + total (fun sqe => weight sqe.op) more :=
  weigh_answered _ _ (fun cqe => weight cqe.sqe.op + extra cqe) hcq more

@[simp] theorem opWeigh_close (s : State) (fd : Nat) :
    opWeigh weight extra (s.close fd) = opWeigh weight extra s :=
  weigh_close _ _ _ s fd

theorem opWeigh_issued {s : State} {sqe : Sqe} {rest : List Sqe}
    (hsub : s.submitted = sqe :: rest) :
    opWeigh weight extra { s with
      submitted := rest
      inflight := s.inflight ++ [⟨sqe, none⟩] } = opWeigh weight extra s :=
  Nat.add_right_cancel (weigh_issued (fun sqe => weight sqe.op) (fun f => weight f.sqe.op)
    (fun cqe => weight cqe.sqe.op + extra cqe) hsub)

theorem opWeigh_provided {s : State} {sqe : Sqe} {rest : List Sqe} (group : List Nat)
    (res : Int) (hsub : s.submitted = sqe :: rest) :
    opWeigh weight extra { s with
      submitted := rest
      group := group
      cq := s.cq ++ [⟨sqe, res, 0⟩] } = opWeigh weight extra s + extra ⟨sqe, res, 0⟩ := by
  have hmove := weigh_provided (fun sqe => weight sqe.op) (fun f => weight f.sqe.op)
    (fun cqe => weight cqe.sqe.op + extra cqe) group ⟨sqe, res, 0⟩ hsub
  unfold opWeigh
  simp only at hmove
  omega

theorem opWeigh_lent {s : State} {i : Nat} {sqe : Sqe} {held : Option Nat} (group : List Nat)
    (held' : Option Nat) (hf : s.inflight[i]? = some ⟨sqe, held⟩) :
    opWeigh weight extra { s with
      group := group
      inflight := s.inflight.set i ⟨sqe, held'⟩ } = opWeigh weight extra s := by
  have hmove := weigh_lent (fun sqe => weight sqe.op) (fun f => weight f.sqe.op)
    (fun cqe => weight cqe.sqe.op + extra cqe) group ⟨sqe, held'⟩ hf
  exact Nat.add_right_cancel hmove

theorem opWeigh_post {s : State} {i : Nat} {f : Issued} (res : Int) (flags : Nat)
    (hf : s.inflight[i]? = some f) :
    opWeigh weight extra (s.post i ⟨f.sqe, res, flags⟩) =
      opWeigh weight extra s + extra ⟨f.sqe, res, flags⟩ := by
  have hmove := weigh_post (fun sqe => weight sqe.op) (fun f => weight f.sqe.op)
    (fun cqe => weight cqe.sqe.op + extra cqe) ⟨f.sqe, res, flags⟩ hf
  unfold opWeigh
  simp only at hmove
  omega

end Operations

end IoWrapper.Echo.Accounting
