import IoWrapper.CoroEcho.Room

/-! A burst that overruns the submission queue. Clients connect one after the other, each
sends a message, and the sends that echo the messages complete in one pass: they leave no
entry for the accept that fails after them. -/
namespace IoWrapper.CoroEcho.Burst
open Core.Machine Core.Tables Core.Pool Server Matching Room
open Echo.Server (OpType maxMessageLen bufferFlags)

abbrev Reaches (limit : Nat) (s : State) : Prop :=
  Reachable (restrict (Within limit) step) (State.init 4) s

variable {limit : Nat} {s : State}

theorem Reaches.step {event : Event} {t : State} (h : Reaches limit s)
    (hwithin : s.connections.keys.length ≤ limit) (hstep : step s event = some t) :
    Reaches limit t :=
  h.tail (restrict_eq_some.mpr ⟨hwithin, hstep⟩)

theorem handle_step {cqe : Cqe} {rest : List Cqe} {reaction : Reaction} (hpc : s.pc = .pass)
    (hcq : s.cq = cqe :: rest)
    (hreaction : handleCqe s.listenFd s.connections cqe = reaction) (hstop : reaction.stop = none)
    (hroom : s.sq.length + reaction.queued.length ≤ sqEntries) :
    Server.step s .handle = some { s with
      sq := s.sq ++ reaction.queued
      cq := rest
      connections := reaction.connections
      fds := s.fds ++ opened cqe
      handled := s.handled ++ [cqe] } := by
  simp only [Server.step, hpc, hcq, State.react, hreaction, hstop, hroom, if_true]

theorem complete_step {front back : List Sqe} {sqe : Sqe} {res : Int} (flags : Nat)
    (h : s.inflight = front ++ sqe :: back) (hpossible : s.Possible sqe res) :
    Server.step s (.complete front.length res flags) =
      some { s with
        inflight := front ++ back
        cq := s.cq ++ [⟨sqe, res, flags⟩] } := by
  rcases eraseIdx_of_split h with ⟨hget, herase⟩
  simp only [Server.step, hget, herase, hpossible, if_true]

/-- So many clients are connected and silent, and the pass is over. -/
structure Idle (limit : Nat) (s : State) (n : Nat) (recvs : List Sqe) : Prop where
  reach : Reaches limit s
  pc : s.pc = .pass
  listenFd : s.listenFd = 4
  sq : s.sq = []
  cq : s.cq = []
  inflight : s.inflight = recvs ++ [addAccept 4 0]
  length : recvs.length = n
  recv : ∀ sqe ∈ recvs, ∃ fd len, sqe.op = .recv fd len
  fds : ∀ fd ∈ s.fds, fd < n + 5
  keys : s.connections.keys.length = n

theorem idle_zero (limit : Nat) : ∃ s, Idle limit s 0 [] := by
  have hsubmit : Server.step (State.init 4) .submit =
      some { State.init 4 with sq := [], inflight := [addAccept 4 0], pc := .pass } := rfl
  have hreach := Reaches.step (Reachable.refl _ _) (Nat.zero_le limit) hsubmit
  exact ⟨_, hreach, rfl, rfl, rfl, rfl, rfl, rfl, by simp, by simp [State.init], rfl⟩

theorem Reaches.submit (h : Reaches limit s) (hwithin : s.connections.keys.length ≤ limit)
    (hpc : s.pc = .pass) (hcq : s.cq = []) :
    Reaches limit { s with sq := [], inflight := s.inflight ++ s.sq, pc := .pass } := by
  have hend : Server.step s .endPass = some { s with pc := .submitting } := if_pos ⟨hpc, hcq⟩
  have hsubmit : Server.step { s with pc := .submitting } .submit =
      some { s with sq := [], inflight := s.inflight ++ s.sq, pc := .pass } := rfl
  exact (h.step hwithin hend).step hwithin hsubmit

theorem Reaches.accepted {listenFd fd : Nat} {rest : List Cqe} (h : Reaches limit s)
    (hwithin : s.connections.keys.length ≤ limit) (hpc : s.pc = .pass)
    (hcq : s.cq = ⟨addAccept listenFd 0, fd, 0⟩ :: rest)
    (hroom : s.sq.length + 2 ≤ sqEntries) :
    ∃ sqe task, sqe.op = .recv fd maxMessageLen ∧ fd ∉ s.connections ∧
      Reaches limit { s with
        sq := s.sq ++ [sqe, addAccept s.listenFd 0]
        cq := rest
        connections := s.connections.insert fd task
        fds := s.fds ++ [fd]
        handled := s.handled ++ [⟨addAccept listenFd 0, fd, 0⟩] } := by
  have hanswer := (wired_of_reachable h.of_restrict).answer hcq
  generalize hreaction : handleCqe _ _ _ = reaction at hanswer
  cases hanswer with
  | @accepted own sqe task hop hres hnew hsqe hawaits howns =>
    refine ⟨sqe, task, hsqe, hnew, ?_⟩
    exact h.step hwithin (handle_step hpc hcq hreaction rfl hroom)
  | exited hwhy => exact absurd hwhy (not_exited_of_nonneg (Int.natCast_nonneg fd))
  | acceptFailed hop hbufs hres =>
    have hneg : (fd : Int) < 0 := hres
    omega
  | provided hop | hungUp hop | read hop | wrote hop => cases hop

theorem Idle.succ {n : Nat} {recvs : List Sqe} (h : Idle limit s n recvs) (hn : n < limit)
    (hint : n + 5 < 2 ^ 31) : ∃ t sqe, Idle limit t (n + 1) (recvs ++ [sqe]) := by
  have hwithin : s.connections.keys.length ≤ limit := by
    rw [h.keys]
    exact Nat.le_of_lt hn
  have hpossible : s.Possible (addAccept 4 0) (n + 5 : Nat) := by
    refine ⟨by omega, by omega, fun _ _ => ⟨?_, ?_⟩⟩
    · rw [h.listenFd]
      omega
    · rw [h.cq, List.flatMap_nil, List.append_nil]
      intro hmem
      have := h.fds _ hmem
      omega
  have hcomplete := complete_step 0 h.inflight hpossible
  rw [h.cq, List.nil_append, List.append_nil] at hcomplete
  have hroom : s.sq.length + 2 ≤ sqEntries := by
    rw [h.sq]
    decide
  rcases (h.reach.step hwithin hcomplete).accepted hwithin h.pc rfl hroom with
    ⟨sqe, task, hsqe, hnew, hreach⟩
  have hkeys : (s.connections.insert (n + 5) task).keys.length = n + 1 := by
    rw [length_keys_insert_of_notMem task hnew, h.keys]
  have hreach' := hreach.submit (Nat.le_trans (Nat.le_of_eq hkeys) hn) h.pc rfl
  refine ⟨_, sqe, hreach', rfl, h.listenFd, rfl, rfl, ?_, ?_, ?_, ?_, hkeys⟩
  · change recvs ++ (s.sq ++ [sqe, addAccept s.listenFd 0]) = recvs ++ [sqe] ++ [addAccept 4 0]
    rw [h.sq, h.listenFd, List.append_assoc]
    rfl
  · rw [List.length_append, h.length, List.length_singleton]
  · intro own hown
    rcases List.mem_append.mp hown with hown | hown
    · exact h.recv own hown
    · rw [List.mem_singleton.mp hown]
      exact ⟨_, _, hsqe⟩
  · intro fd hfd
    rcases List.mem_append.mp hfd with hfd | hfd
    · have := h.fds fd hfd
      omega
    · rw [List.mem_singleton.mp hfd]
      omega

theorem idle_of_le {n : Nat} (hn : n ≤ limit) (hint : n + 5 ≤ 2 ^ 31) :
    ∃ s recvs, Idle limit s n recvs := by
  induction n with
  | zero =>
    rcases idle_zero limit with ⟨s, hs⟩
    exact ⟨s, [], hs⟩
  | succ n ih =>
    rcases ih (by omega) (by omega) with ⟨s, recvs, hs⟩
    rcases hs.succ hn (by omega) with ⟨t, sqe, ht⟩
    exact ⟨t, recvs ++ [sqe], ht⟩

theorem Reaches.completed (front sqes back : List Sqe) (flags : Sqe → Nat)
    (h : Reaches limit s) (hwithin : s.connections.keys.length ≤ limit)
    (hinflight : s.inflight = front ++ sqes ++ back)
    (hother : ∀ sqe ∈ sqes, sqe.op.connInfo.type ≠ .accept) :
    Reaches limit { s with
      inflight := front ++ back
      cq := s.cq ++ sqes.map fun sqe => ⟨sqe, 1, flags sqe⟩ } := by
  induction sqes generalizing s with
  | nil =>
    rw [List.append_nil] at hinflight
    rw [← hinflight, List.map_nil, List.append_nil]
    exact h
  | cons sqe sqes ih =>
    rw [List.append_assoc, List.cons_append] at hinflight
    have htype : sqe.userData.type ≠ .accept := by
      rw [type_of_op]
      exact hother sqe (List.mem_cons_self ..)
    have hpossible : s.Possible sqe 1 :=
      ⟨by decide, by decide, fun haccept => absurd haccept htype⟩
    have hnext := h.step hwithin (complete_step (flags sqe) hinflight hpossible)
    have hrest := ih hnext hwithin (List.append_assoc front sqes back).symm
      fun own hown => hother own (List.mem_cons_of_mem sqe hown)
    simp only [List.append_assoc, List.singleton_append] at hrest
    exact hrest

theorem Reaches.failed {listenFd : Nat} (h : Reaches limit s)
    (hwithin : s.connections.keys.length ≤ limit)
    (hinflight : s.inflight = [addAccept listenFd 0]) :
    Reaches limit { s with
      inflight := []
      cq := s.cq ++ [⟨addAccept listenFd 0, -103, 0⟩] } := by
  have hpossible : s.Possible (addAccept listenFd 0) (-103) :=
    ⟨by decide, by decide, fun _ hres => absurd hres (by decide)⟩
  have hsplit : s.inflight = [] ++ addAccept listenFd 0 :: [] := hinflight
  exact h.step hwithin (complete_step 0 hsplit hpossible)

structure Passed (limit : Nat) (s t : State) (rest : List Cqe) (queued : List Sqe) : Prop where
  reach : Reaches limit t
  pc : t.pc = .pass
  cq : t.cq = rest
  inflight : t.inflight = s.inflight
  sq : t.sq = s.sq ++ queued
  keys : t.connections.keys.length = s.connections.keys.length

theorem Passed.trans {t u : State} {rest rest' : List Cqe} {queued queued' : List Sqe}
    (h : Passed limit s t rest queued) (h' : Passed limit t u rest' queued') :
    Passed limit s u rest' (queued ++ queued') := by
  refine ⟨h'.reach, h'.pc, h'.cq, h'.inflight.trans h.inflight, ?_, h'.keys.trans h.keys⟩
  rw [h'.sq, h.sq, List.append_assoc]

/-- Every completion of this kind can be processed while there is room for so many entries,
and it is entries of that kind that are queued for it. -/
def Passes (limit size : Nat) (kind : Cqe → Prop) (good : Sqe → Prop) : Prop :=
  ∀ (s : State) (cqe : Cqe) (rest : List Cqe), Reaches limit s →
    s.connections.keys.length ≤ limit → s.pc = .pass → s.cq = cqe :: rest → kind cqe →
    s.sq.length + size ≤ sqEntries →
    ∃ t queued, Passed limit s t rest queued ∧ queued.length = size ∧ ∀ sqe ∈ queued, good sqe

theorem Passes.all {size : Nat} {kind : Cqe → Prop} {good : Sqe → Prop} {back : List Cqe}
    (hpasses : Passes limit size kind good) (cqes : List Cqe) (h : Reaches limit s)
    (hwithin : s.connections.keys.length ≤ limit) (hpc : s.pc = .pass)
    (hcq : s.cq = cqes ++ back) (hkind : ∀ cqe ∈ cqes, kind cqe)
    (hroom : s.sq.length + size * cqes.length ≤ sqEntries) :
    ∃ t queued, Passed limit s t back queued ∧ queued.length = size * cqes.length ∧
      ∀ sqe ∈ queued, good sqe := by
  induction cqes generalizing s with
  | nil => exact ⟨s, [], ⟨h, hpc, hcq, rfl, (List.append_nil _).symm, rfl⟩, rfl, by simp⟩
  | cons cqe cqes ih =>
    rw [List.length_cons, Nat.mul_succ] at hroom
    rcases hpasses s cqe (cqes ++ back) h hwithin hpc hcq (hkind cqe (List.mem_cons_self ..))
      (by omega) with ⟨t, queued, ht, hlength, hgood⟩
    have hroom' : t.sq.length + size * cqes.length ≤ sqEntries := by
      rw [ht.sq, List.length_append, hlength]
      omega
    rcases ih ht.reach (ht.keys ▸ hwithin) ht.pc ht.cq
      (fun own hmem => hkind own (List.mem_cons_of_mem cqe hmem)) hroom' with
      ⟨u, later, hu, hlater, hgood'⟩
    refine ⟨u, queued ++ later, ht.trans hu, ?_, ?_⟩
    · rw [List.length_append, hlength, hlater, List.length_cons, Nat.mul_succ]
      omega
    · intro sqe hsqe
      rcases List.mem_append.mp hsqe with hsqe | hsqe
      · exact hgood sqe hsqe
      · exact hgood' sqe hsqe

theorem passes_received (limit : Nat) :
    Passes limit 1 (fun cqe => cqe.res = 1 ∧ ∃ fd len, cqe.sqe.op = .recv fd len)
      (fun sqe => ∃ fd bid len, sqe.op = .send fd bid len) := by
  rintro s cqe rest h hwithin hpc hcq ⟨hres, fd, len, hown⟩ hroom
  have hanswer := (wired_of_reachable h.of_restrict).answer hcq
  generalize hreaction : handleCqe _ _ _ = reaction at hanswer
  cases hanswer with
  | read hop hbufs htask hsize hsqe =>
    refine ⟨_, _, ⟨h.step hwithin (handle_step hpc hcq hreaction rfl hroom), hpc, rfl, rfl, rfl,
      length_keys_insert _ (mem_of_lookup htask)⟩, rfl, ?_⟩
    intro sqe hmem
    rw [List.mem_singleton.mp hmem]
    exact ⟨_, _, _, hsqe⟩
  | hungUp hop hbufs htask hsize =>
    rw [hres] at hsize
    cases hsize
  | exited hwhy => exact absurd hwhy (not_exited_of_nonneg (by rw [hres]; decide))
  | provided hop | acceptFailed hop | accepted hop | wrote hop =>
    rw [hown] at hop
    cases hop

theorem passes_sent (limit : Nat) :
    Passes limit 2 (fun cqe => cqe.res = 1 ∧ ∃ fd bid len, cqe.sqe.op = .send fd bid len)
      (fun _ => True) := by
  rintro s cqe rest h hwithin hpc hcq ⟨hres, fd, bid, len, hown⟩ hroom
  have hanswer := (wired_of_reachable h.of_restrict).answer hcq
  generalize hreaction : handleCqe _ _ _ = reaction at hanswer
  cases hanswer with
  | wrote hop hbufs htask =>
    exact ⟨_, _, ⟨h.step hwithin (handle_step hpc hcq hreaction rfl hroom), hpc, rfl, rfl, rfl,
      length_keys_insert _ (mem_of_lookup htask)⟩, rfl, fun _ _ => trivial⟩
  | exited hwhy => exact absurd hwhy (not_exited_of_nonneg (by rw [hres]; decide))
  | provided hop | acceptFailed hop | accepted hop | hungUp hop | read hop =>
    rw [hown] at hop
    cases hop

theorem Reaches.overran {listenFd : Nat} {rest : List Cqe} (h : Reaches limit s)
    (hwithin : s.connections.keys.length ≤ limit) (hpc : s.pc = .pass)
    (hcq : s.cq = ⟨addAccept listenFd 0, -103, 0⟩ :: rest) (hfull : s.sq.length = sqEntries) :
    ∃ t, Reaches limit t ∧ t.pc = .nullSqe := by
  have hreaction : handleCqe s.listenFd s.connections ⟨addAccept listenFd 0, -103, 0⟩ =
      ⟨[addAccept s.listenFd 0], s.connections, none, none⟩ := rfl
  have hover : ¬s.sq.length + 1 ≤ sqEntries := by
    rw [hfull]
    exact Nat.not_succ_le_self _
  have hstep : Server.step s .handle = some { s with pc := .nullSqe } := by
    simp only [Server.step, hpc, hcq, State.react, hreaction, List.length_singleton, hover,
      if_false]
  exact ⟨_, h.step hwithin hstep, rfl⟩

theorem Reaches.echoed {sends : List Sqe} (h : Reaches limit s)
    (hwithin : s.connections.keys.length ≤ limit) (hpc : s.pc = .pass) (hcq : s.cq = [])
    (hsq : s.sq = []) (hinflight : s.inflight = [addAccept 4 0] ++ sends)
    (hsends : ∀ sqe ∈ sends, ∃ fd bid len, sqe.op = .send fd bid len)
    (hfull : 2 * sends.length = sqEntries) : ∃ t, Reaches limit t ∧ t.pc = .nullSqe := by
  have hother : ∀ sqe ∈ sends, sqe.op.connInfo.type ≠ .accept := by
    intro sqe hsqe
    rcases hsends sqe hsqe with ⟨fd, bid, len, hop⟩
    rw [hop]
    exact OpType.noConfusion
  have hsent := h.completed [addAccept 4 0] sends [] (fun _ => 0) hwithin
    (by rw [hinflight, List.append_nil]) hother
  rw [hcq, List.nil_append, List.append_nil] at hsent
  have hfailed := hsent.failed hwithin rfl
  have hown : ∀ cqe ∈ sends.map fun sqe => (⟨sqe, 1, 0⟩ : Cqe),
      cqe.res = 1 ∧ ∃ fd bid len, cqe.sqe.op = .send fd bid len := by
    intro cqe hcqe
    rcases List.mem_map.mp hcqe with ⟨sqe, hsqe, rfl⟩
    exact ⟨rfl, hsends sqe hsqe⟩
  rcases (passes_sent limit).all _ hfailed hwithin hpc rfl hown (by simp [hsq, hfull]) with
    ⟨t, queued, ht, hlength, -⟩
  refine ht.reach.overran (ht.keys ▸ hwithin) ht.pc ht.cq ?_
  rw [ht.sq, hsq, List.nil_append, hlength, List.length_map, hfull]

theorem overran_of_le (hlimit : 2048 ≤ limit) : ∃ s, Reaches limit s ∧ s.pc = .nullSqe := by
  rcases idle_of_le hlimit (by decide) with ⟨s, recvs, hs⟩
  have hwithin : s.connections.keys.length ≤ limit := hs.keys.symm ▸ hlimit
  have hother : ∀ sqe ∈ recvs, sqe.op.connInfo.type ≠ .accept := by
    intro sqe hsqe
    rcases hs.recv sqe hsqe with ⟨fd, len, hop⟩
    rw [hop]
    exact OpType.noConfusion
  have hcompleted := hs.reach.completed [] recvs [addAccept 4 0]
    (fun sqe => bufferFlags sqe.userData.fd) hwithin hs.inflight hother
  rw [hs.cq, List.nil_append, List.nil_append] at hcompleted
  have hown : ∀ cqe ∈ recvs.map fun sqe => (⟨sqe, 1, bufferFlags sqe.userData.fd⟩ : Cqe),
      cqe.res = 1 ∧ ∃ fd len, cqe.sqe.op = .recv fd len := by
    intro cqe hcqe
    rcases List.mem_map.mp hcqe with ⟨sqe, hsqe, rfl⟩
    exact ⟨rfl, hs.recv sqe hsqe⟩
  have hroom : s.sq.length + 1 * (recvs.map fun sqe =>
      (⟨sqe, 1, bufferFlags sqe.userData.fd⟩ : Cqe)).length ≤ sqEntries := by
    rw [hs.sq, List.length_map, hs.length]
    decide
  rcases (passes_received limit).all _ hcompleted hwithin hs.pc (List.append_nil _).symm hown
    hroom with ⟨t, sends, ht, hlength, hsends⟩
  rw [List.length_map, hs.length] at hlength
  have hwithin' : t.connections.keys.length ≤ limit := ht.keys ▸ hwithin
  refine (ht.reach.submit hwithin' ht.pc ht.cq).echoed hwithin' rfl ht.cq rfl ?_ hsends ?_
  · change t.inflight ++ t.sq = _
    rw [ht.inflight, ht.sq, hs.sq, List.nil_append]
  · rw [hlength]
    rfl

/-- Every entry asked for is found exactly when the queue has two for each connection and
two more: at most 2047 connections. -/
theorem nullSqe_unreachable_iff (limit : Nat) :
    (∀ (listenFd : Nat) (s : State),
      Reachable (restrict (Within limit) step) (State.init listenFd) s → s.pc ≠ .nullSqe) ↔
      2 * (limit + 1) ≤ sqEntries := by
  constructor
  · intro h
    by_contra hover
    have hlimit : 2048 ≤ limit := by
      unfold sqEntries at hover
      omega
    rcases overran_of_le hlimit with ⟨s, hreach, hnull⟩
    exact h 4 s hreach hnull
  · intro hlimit listenFd s
    exact no_nullSqe hlimit

/-- With 2048 clients, half of those the program allows for, it takes an entry that is not
there. -/
theorem sends_overrun_queue :
    ∃ s, Reachable (restrict (Within 4096) step) (State.init 4) s ∧ s.pc = .nullSqe :=
  overran_of_le (by decide)

end IoWrapper.CoroEcho.Burst
