import IoWrapper.DemoEcho.Server

/-! What is pending on each connection. A connection goes on as long as each successful send
is followed by a recv on the same descriptor, which is so just if the variable that the recv
takes its descriptor from happens to hold it; and every connection that ends takes the
listening socket with it. -/
namespace IoWrapper.DemoEcho.Pending
open Core.Machine Core.Traffic Server

def socket : Op → Option Nat
  | .recvmsg fd _ | .sendmsg fd _ _ => some fd
  | .accept _ | .provideBuffers _ => none

def serving (s : State) : List Nat := s.ring.pending.filterMap socket

/-- The listening socket has not been shut down, and every connection has exactly one recv or
send pending. -/
structure Orderly (s : State) : Prop where
  listening : s.shutdowns = 0
  one : ∀ fd ∈ s.conns, (serving s).count fd = 1

/-- A recv or a send has failed, or a send has succeeded while the variable held something
else than its descriptor. -/
def Lapse (cqe : Cqe) (sockConnFd : Nat) : Prop :=
  ∃ fd ∈ socket cqe.entry, cqe.res ≤ 0 ∨ cqe.entry.connInfo.type = .write ∧ sockConnFd ≠ fd

instance (cqe : Cqe) (sockConnFd : Nat) : Decidable (Lapse cqe sockConnFd) :=
  inferInstanceAs (Decidable (∃ fd ∈ socket cqe.entry, _ ∨ _))

def lapseNote (sockfd : Nat) (s : State) : Event → List Cqe
  | .handle sockConnFd bid =>
    match s.ring.cq with
    | cqe :: _ =>
      match handleCqe sockfd s cqe sockConnFd bid with
      | .ok _ => if Lapse cqe sockConnFd then [cqe] else []
      | .error _ => []
    | [] => []
  | .submit _ | .waitError | .complete .. => []

/-- The connections are those that are served, and they are open under descriptors of their
own, as are those whose accepts have not been processed. -/
structure Settled (s : State) : Prop where
  served : (serving s).Perm s.conns
  nodup : (s.conns ++ s.ring.cq.flatMap opened).Nodup
  isOpen : ∀ fd ∈ s.conns ++ s.ring.cq.flatMap opened, fd ∈ s.fds
  listening : s.shutdowns = 0

theorem Settled.orderly {s : State} (h : Settled s) : Orderly s := by
  refine ⟨h.listening, fun fd hfd => ?_⟩
  rw [h.served.count_eq]
  exact List.count_eq_one_of_mem (List.nodup_append.mp h.nodup).1 hfd

section Moves

variable {sockfd sockConnFd bid : Nat} {s t : State} {cqe : Cqe} {rest : List Cqe}

theorem serving_push (op : Op) : (serving (s.push op)).Perm ((socket op).toList ++ serving s) := by
  have hperm := (IoRing.pending_push s.ring op).filterMap socket
  cases hsocket : socket op with
  | none => simpa [serving, State.push, hsocket] using hperm
  | some fd => simpa [serving, State.push, hsocket] using hperm

theorem serving_seen (hcq : s.ring.cq = cqe :: rest) :
    (serving s).Perm ((socket cqe.entry).toList ++ serving s.cqeSeen) := by
  have hperm := (IoRing.pending_seen hcq).filterMap socket
  cases hsocket : socket cqe.entry with
  | none => simpa [serving, State.cqeSeen, hsocket] using hperm
  | some fd => simpa [serving, State.cqeSeen, hsocket] using hperm

theorem opened_seen (hcq : s.ring.cq = cqe :: rest) :
    s.ring.cq.flatMap opened = opened cqe ++ s.cqeSeen.ring.cq.flatMap opened := by
  simp [State.cqeSeen, hcq]

theorem opened_of_socket {fd : Nat} (h : socket cqe.entry = some fd) : opened cqe = [] := by
  apply if_neg
  cases hop : cqe.entry <;> simp_all [socket, Op.connInfo]

theorem Settled.of_perm (h : Settled s) (hserved : (serving t).Perm (serving s))
    (hconns : t.conns = s.conns)
    (hopened : t.ring.cq.flatMap opened = s.ring.cq.flatMap opened) (hfds : t.fds = s.fds)
    (hshut : t.shutdowns = s.shutdowns) : Settled t := by
  refine ⟨?_, ?_, ?_, hshut.trans h.listening⟩
  · rw [hconns]
    exact hserved.trans h.served
  · rw [hconns, hopened]
    exact h.nodup
  · rw [hconns, hopened, hfds]
    exact h.isOpen

theorem serving_reply {op : Op} (hcq : s.ring.cq = cqe :: rest)
    (hsocket : socket op = socket cqe.entry) :
    (serving (s.cqeSeen.push op)).Perm (serving s) := by
  refine (serving_push op).trans ?_
  rw [hsocket]
  exact (serving_seen hcq).symm

theorem serving_skip (hcq : s.ring.cq = cqe :: rest) (hsocket : socket cqe.entry = none) :
    (serving s.cqeSeen).Perm (serving s) := by
  have hperm := serving_seen hcq
  rw [hsocket] at hperm
  exact hperm.symm

theorem Settled.accepted {fd : Nat} (h : Settled s) (hcq : s.ring.cq = cqe :: rest)
    (hsocket : socket cqe.entry = none) (hopened : opened cqe = [fd]) :
    Settled (((s.cqeSeen.push (.accept sockfd)).push (.recvmsg fd maxMessageLen)).adopt fd) := by
  have hreturned := opened_seen hcq
  rw [hopened] at hreturned
  have hmove : (s.conns ++ [fd]) ++ s.cqeSeen.ring.cq.flatMap opened =
      s.conns ++ s.ring.cq.flatMap opened := by
    rw [hreturned, List.append_assoc]
  constructor
  case served =>
    have hnone : socket (.accept sockfd) = socket cqe.entry := hsocket.symm
    have haccept := (serving_reply hcq hnone).trans h.served
    refine (serving_push _).trans ?_
    exact (haccept.cons fd).trans (List.perm_append_singleton ..).symm
  case nodup => exact hmove ▸ h.nodup
  case isOpen => exact fun fd' hfd' => h.isOpen fd' (hmove ▸ hfd')
  case listening => exact h.listening

theorem Settled.answered (h : Settled s) (hcq : s.ring.cq = cqe :: rest)
    (ht : Answered sockfd s cqe sockConnFd bid t) (hno : ¬Lapse cqe sockConnFd) : Settled t := by
  have hopened : opened cqe = [] → s.cqeSeen.ring.cq.flatMap opened = s.ring.cq.flatMap opened := by
    intro hnil
    rw [opened_seen hcq, hnil, List.nil_append]
  cases ht with
  | notAccepted hop hres =>
    have hnil : opened cqe = [] := if_neg fun hboth => by omega
    exact h.of_perm (serving_skip hcq (by rw [hop]; rfl)) rfl (hopened hnil) rfl rfl
  | accepted hop hres =>
    exact h.accepted hcq (by rw [hop]; rfl) (if_pos ⟨by rw [hop]; rfl, hres⟩)
  | readFailed hop hres => exact absurd ⟨_, by rw [hop]; rfl, .inl hres⟩ hno
  | received hop hres =>
    have hnil := opened_of_socket (by rw [hop]; rfl : socket cqe.entry = some _)
    exact h.of_perm (serving_reply hcq (by rw [hop]; rfl)) rfl (hopened hnil) rfl rfl
  | writeFailed hop hres => exact absurd ⟨_, by rw [hop]; rfl, .inl hres⟩ hno
  | @sent fd given len hop hres =>
    have hnil := opened_of_socket (by rw [hop]; rfl : socket cqe.entry = some fd)
    have hsame : sockConnFd = fd := by
      by_contra hne
      exact hno ⟨fd, by rw [hop]; rfl, .inr ⟨by rw [hop]; rfl, hne⟩⟩
    have hprovided : Settled (s.push (.provideBuffers given)) :=
      h.of_perm (serving_push _) rfl rfl rfl rfl
    exact hprovided.of_perm (serving_reply hcq (by rw [hop, hsame]; rfl)) rfl (hopened hnil) rfl rfl
  | notProvided hop hres => exact h
  | provided hop hres =>
    have hnil : opened cqe = [] := if_neg fun hboth => by simp [hop, Op.connInfo] at hboth
    exact h.of_perm (serving_skip hcq (by rw [hop]; rfl)) rfl (hopened hnil) rfl rfl

/-- A lapse shows in the next state: the listening socket is shut down, or the connection is
left with nothing pending. -/
theorem not_orderly_of_lapse (h : Settled s) (hcq : s.ring.cq = cqe :: rest)
    (ht : Answered sockfd s cqe sockConnFd bid t) (hlapse : Lapse cqe sockConnFd) :
    ¬Orderly t := by
  rcases hlapse with ⟨fd, hsocket, hcase⟩
  intro horderly
  cases ht with
  | notAccepted hop | accepted hop | notProvided hop | provided hop =>
    rw [hop] at hsocket
    cases hsocket
  | readFailed | writeFailed => cases horderly.listening
  | received hop hres =>
    rcases hcase with hle | ⟨htype, -⟩
    · omega
    · simp [hop, Op.connInfo] at htype
  | @sent fd' given len hop hres =>
    rcases hcase with hle | ⟨-, hne⟩
    · omega
    · rw [hop] at hsocket
      cases hsocket
      have hseen := serving_seen hcq
      rw [hop] at hseen
      have hmem : fd ∈ s.conns := h.served.mem_iff.mp (hseen.mem_iff.mpr (List.mem_cons_self ..))
      have hbefore : (serving s).count fd = 1 := h.orderly.one fd hmem
      have hafter := horderly.one fd hmem
      rw [hseen.count_eq] at hbefore
      have hcount : (serving ((s.push (.provideBuffers given)).cqeSeen.push
          (.recvmsg sockConnFd maxMessageLen))).count fd = (serving s.cqeSeen).count fd := by
        rw [(serving_push _).count_eq]
        change List.count fd (sockConnFd :: serving (s.cqeSeen.push (.provideBuffers given))) = _
        rw [List.count_cons_of_ne hne, (serving_push _).count_eq]
        rfl
      change (fd :: serving s.cqeSeen).count fd = 1 at hbefore
      rw [List.count_cons_self] at hbefore
      omega

theorem Settled.completed {i : Nat} (h : Settled s) (hop : s.ring.inflight[i]? = some cqe.entry)
    (hpossible : s.Possible cqe) : Settled (s.completed i cqe) := by
  have hreturned : (s.completed i cqe).ring.cq.flatMap opened =
      s.ring.cq.flatMap opened ++ opened cqe := by
    simp [State.completed]
  refine ⟨?_, ?_, ?_, h.listening⟩
  · exact ((IoRing.pending_complete hop).filterMap socket).trans h.served
  · rw [hreturned, ← List.append_assoc]
    refine List.nodup_append.mpr ⟨h.nodup, ?_, ?_⟩
    · unfold opened
      split <;> simp
    · rintro fd hfd other hother rfl
      exact hpossible.2.2 fd hother (h.isOpen fd hfd)
  · rw [hreturned, ← List.append_assoc]
    intro fd hfd
    rcases List.mem_append.mp hfd with hfd | hfd
    · exact List.mem_append_left _ (h.isOpen fd hfd)
    · exact List.mem_append_right _ hfd

theorem lapseNote_eq_nil (hcq : s.ring.cq = cqe :: rest)
    (hok : handleCqe sockfd s cqe sockConnFd bid = .ok t) :
    lapseNote sockfd s (.handle sockConnFd bid) = [] ↔ ¬Lapse cqe sockConnFd := by
  simp [lapseNote, hcq, hok]

theorem Settled.step {event : Event} (h : Settled s) (hstep : step sockfd s event = some t)
    (hnote : lapseNote sockfd s event = []) : Settled t := by
  cases step_sound hstep with
  | @submitted count hpc =>
    exact h.of_perm ((IoRing.pending_submit s.ring count).filterMap socket) rfl rfl rfl rfl
  | failed | stopped => exact h.of_perm (List.Perm.refl _) rfl rfl rfl rfl
  | answered hpc hcq hok hanswered =>
    have hno := (lapseNote_eq_nil hcq hok).mp hnote
    exact (h.answered hcq hanswered hno).of_perm (List.Perm.refl _) rfl rfl rfl rfl
  | completed hop hpossible => exact h.completed hop hpossible

theorem not_orderly_of_note {event : Event} (h : Settled s) (hstep : step sockfd s event = some t)
    (hnote : lapseNote sockfd s event ≠ []) : ¬Orderly t := by
  cases step_sound hstep with
  | submitted | failed | completed => exact absurd rfl hnote
  | stopped hpc hcq hstop => exact absurd (by simp only [lapseNote, hcq, hstop]) hnote
  | answered hpc hcq hok hanswered =>
    have hlapse := not_not.mp (mt (lapseNote_eq_nil hcq hok).mpr hnote)
    intro horderly
    exact not_orderly_of_lapse h hcq hanswered hlapse ⟨horderly.listening, horderly.one⟩

end Moves

theorem settled_init (sockfd : Nat) : Settled (State.init sockfd) :=
  ⟨List.Perm.refl _, List.nodup_nil, nofun, rfl⟩

/-- At every moment the listening socket is untouched and every connection has exactly one
recv or send pending, just if no recv or send has failed and every successful send was
processed while the variable held its own descriptor. -/
theorem orderly_iff_no_lapse {sockfd : Nat} {events : List Event} {s : State} {lapses : List Cqe}
    (hrun : run (record (lapseNote sockfd) (step sockfd)) (State.init sockfd, []) events =
      some (s, lapses)) :
    Always (record (lapseNote sockfd) (step sockfd)) (State.init sockfd, []) events
      (fun t => Orderly t.1) ↔ lapses = [] := by
  apply always_record_iff Settled hrun (settled_init sockfd)
  · exact fun s hs => hs.orderly
  · exact fun s event t _ hs hstep hnote => hs.step hstep hnote
  · exact fun s event t _ hs hstep hnote => not_orderly_of_note hs hstep hnote

def connect (i : Nat) (fd : Int) : List Event :=
  [.submit 2, .complete i fd, .handle 0 0]

def echo (i j sockConnFd : Nat) : List Event :=
  [.submit 2, .complete i 4, .handle 0 7, .submit 1, .complete j 4, .handle sockConnFd 0]

theorem orderly_one_client : ∃ t : State × List Cqe, t.1.conns = [5] ∧
    run (record (lapseNote 3) (step 3)) (State.init 3, []) (connect 0 5 ++ echo 1 1 5) = some t ∧
    Always (record (lapseNote 3) (step 3)) (State.init 3, []) (connect 0 5 ++ echo 1 1 5)
      (fun t => Orderly t.1) := by
  have hview : (run (record (lapseNote 3) (step 3)) (State.init 3, [])
      (connect 0 5 ++ echo 1 1 5)).map (fun t => (t.1.conns, t.2)) = some ([5], []) := by
    decide +kernel
  rcases Option.map_eq_some_iff.mp hview with ⟨⟨s, lapses⟩, hrun, ht⟩
  rw [Prod.mk.injEq] at ht
  exact ⟨(s, lapses), ht.1, hrun, (orderly_iff_no_lapse hrun).mpr ht.2⟩

def twoClients : List Event := connect 0 5 ++ connect 0 6 ++ echo 0 2 6

/-- The first connection is left with nothing pending and the second one with two recvs. When
a client hangs up, the listening socket is shut down. -/
theorem second_client_gets_recv :
    (∃ s, Reachable (step 3) (State.init 3) s ∧ s.conns = [5, 6] ∧ serving s = [6, 6] ∧
      ¬Orderly s) ∧
    ∃ s, Reachable (step 3) (State.init 3) s ∧ s.conns = [] ∧ s.shutdowns = 1 ∧ ¬Orderly s := by
  have hview : (run (step 3) (State.init 3) twoClients).map (fun s => (s.conns, serving s)) =
      some ([5, 6], [6, 6]) := by
    decide +kernel
  have hhangup : (run (step 3) (State.init 3)
      (connect 0 5 ++ [.submit 2, .complete 1 0, .handle 0 0])).map
        (fun s => (s.conns, s.shutdowns)) = some ([], 1) := by
    decide +kernel
  rcases Reachable.of_view hview with ⟨s, hreach, hs⟩
  rcases Reachable.of_view hhangup with ⟨t, hreach', ht⟩
  rw [Prod.mk.injEq] at hs ht
  refine ⟨⟨s, hreach, hs.1, hs.2, fun horderly => ?_⟩, ⟨t, hreach', ht.1, ht.2, fun horderly => ?_⟩⟩
  · have hone := horderly.one 5 (by simp [hs.1])
    rw [hs.2] at hone
    cases hone
  · cases ht.2.symm.trans horderly.listening

end IoWrapper.DemoEcho.Pending
