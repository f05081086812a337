import IoWrapper.TokenEcho.Entries

/-! A burst that loses an entry. Clients connect one after the other, and then all
their sockets become readable in one batch: the handlers fill the queue with entries
that are not published, and the entry that is left over is dropped. -/
namespace IoWrapper.TokenEcho.Burst
open Core.Machine Core.Pool Core.Rings Core.Tables Server Operations Entries

def acceptEntry : Entry := ⟨.accept 4, 0⟩

def poll (i : Nat) : Entry := ⟨.pollAdd (i + 5), i + 1⟩

def polls (n : Nat) : List Entry := (List.range n).map poll

def tokens : Nat → Table Token
  | 0 => AList.singleton 0 Token.accept
  | n + 1 => (tokens n).insert (n + 1) (.poll (n + 5))

/-- So many clients are connected and silent, and the loop waits. -/
def clients (n : Nat) (taken : Fin 4) (built handed : List Entry) : State where
  accept := ⟨acceptEntry, 0⟩
  sq := ⟨taken, [], [], Nat.le_trans taken.is_le (by decide)⟩
  backlog := []
  bufpool := []
  bufAlloc := []
  tokenAlloc := tokens n
  inflight := [acceptEntry, acceptEntry] ++ polls n ++ [acceptEntry]
  cq := ⟨[], [], []⟩
  closed := []
  errors := []
  built := built
  handed := handed
  dropped := []
  pc := .waiting

theorem tokens_lookup_accept (n : Nat) : (tokens n).lookup 0 = some .accept := by
  induction n with
  | zero => rfl
  | succ n ih =>
    rw [tokens, AList.lookup_insert_ne (by omega)]
    exact ih

theorem tokens_lookup {n i : Nat} (h : i < n) :
    (tokens n).lookup (i + 1) = some (.poll (i + 5)) := by
  induction n with
  | zero => omega
  | succ n ih =>
    by_cases heq : i = n
    · rw [heq]
      exact AList.lookup_insert _
    · rw [tokens, AList.lookup_insert_ne (by omega)]
      exact ih (by omega)

theorem tokens_notMem {n key : Nat} (h : n < key) : key ∉ tokens n := by
  induction n with
  | zero =>
    intro hmem
    have hzero : key = 0 := List.mem_singleton.mp (AList.mem_keys.mp hmem)
    omega
  | succ n ih =>
    rw [tokens, AList.mem_insert]
    rintro (heq | hmem)
    · omega
    · exact ih (by omega) hmem

theorem weight_tokens (n : Nat) : weight Token.isConnection (tokens n) = n := by
  induction n with
  | zero => rfl
  | succ n ih =>
    rw [tokens, weight_insert_of_notMem _ _ (tokens_notMem (Nat.lt_succ_self n)), ih]
    exact Nat.add_comm 1 n

theorem tokenAlloc_step {s t : State} {event : Event} (h : Step s event t)
    (hevent : ∀ key, event ≠ .handle key) : t.tokenAlloc = s.tokenAlloc := by
  cases h with
  | submitted | busy | failed | woke | cleanBusy | accepts | passEnded | completed => rfl
  | cleaned | refilled | dropped => exact settled_tokenAlloc s
  | @handledError key | @panicked key | @handledAccept key | @handledPoll key
  | @handledHangup key | @handledRead key | @handledWrite key => exact absurd rfl (hevent key)

section Within

variable {limit : Nat} {s t : State}

theorem reachable_of_run {events : List Event} (hrun : run step s events = some t)
    (hs : connections s ≤ limit) (hevents : ∀ event ∈ events, ∀ key, event ≠ .handle key) :
    Reachable (restrict (Within limit) step) s t := by
  refine Reachable.of_run_restrict (fun s => connections s ≤ limit) hrun hs ?_ ?_
  · exact fun _ hs _ _ => hs
  · intro s event hevent t hs hstep
    unfold connections
    rw [tokenAlloc_step (step_sound hstep) (hevents event hevent)]
    exact hs

theorem reachable_of_step {event : Event} (hstep : step s event = some t)
    (hs : connections s ≤ limit) : Reachable (restrict (Within limit) step) s t :=
  (Reachable.refl _ s).tail (restrict_eq_some.mpr ⟨hs, hstep⟩)

end Within

theorem complete_step {s : State} {front back : List Entry} {entry : Entry} (result : Int)
    (h : s.inflight = front ++ entry :: back) :
    step s (.complete front.length result) =
      some { s with inflight := front ++ back, cq := s.cq.post ⟨entry, result⟩ } := by
  rcases eraseIdx_of_split h with ⟨hget, herase⟩
  simp only [step, hget, herase]

theorem round_run {s : State} (hpc : s.pc = .waiting) (hcq : s.cq.outstanding ≠ [])
    (hbacklog : s.backlog = []) (hfull : s.sq.isFull = false) :
    run step s [.wake, .cleanBacklog .ok, .pushAccepts] =
      some { s with sq := s.sq.sync, cq := s.cq.sync }.accepts := by
  have hwake : step s .wake = some { s with cq := s.cq.sync, pc := .cleanBacklog } :=
    if_pos ⟨hpc, hcq⟩
  have hclean : step { s with cq := s.cq.sync, pc := .cleanBacklog } (.cleanBacklog .ok) =
      some { s with sq := s.sq.sync, cq := s.cq.sync, pc := .pushAccepts } := by
    simp only [step, State.clean, hfull, State.refill, State.sync, hbacklog, if_true,
      Bool.false_eq_true, if_false]
  rw [run_cons, hwake, Option.bind_some, run_cons, hclean, Option.bind_some]
  rfl

def connecting (n : Nat) (built handed : List Entry) : State :=
  { clients n 0 built handed with
    inflight := [acceptEntry, acceptEntry] ++ polls n
    cq := ⟨[], [⟨acceptEntry, (n + 5 : Nat)⟩], []⟩
    pc := .completions }

def connected (n : Nat) (built handed : List Entry) : State :=
  { connecting n built handed with
    accept := ⟨acceptEntry, 1⟩
    sq := ⟨0, [], [poll n], Nat.le_of_ble_eq_true rfl⟩
    tokenAlloc := tokens (n + 1)
    cq := ⟨[⟨acceptEntry, (n + 5 : Nat)⟩], [], []⟩ }

theorem clients_not_full (n : Nat) (taken : Fin 4) (built handed : List Entry) :
    (clients n taken built handed).sq.isFull = false := by
  have := taken.isLt
  simp only [SubmissionQueue.isFull, SubmissionQueue.used, clients, ringEntries, List.length_nil,
    beq_eq_false_iff_ne]
  omega

theorem connecting_run (n : Nat) (taken : Fin 4) (built handed : List Entry) :
    run step (clients n taken built handed)
      [.complete (n + 2) (n + 5 : Nat), .wake, .cleanBacklog .ok, .pushAccepts] =
      some (connecting n (built ++ []) handed) := by
  have hlength : ([acceptEntry, acceptEntry] ++ polls n).length = n + 2 := by
    simp [polls]
  have hsplit : (clients n taken built handed).inflight =
      [acceptEntry, acceptEntry] ++ polls n ++ acceptEntry :: [] := rfl
  have hcomplete := complete_step (n + 5 : Nat) hsplit
  rw [hlength, List.append_nil] at hcomplete
  rw [run_cons, hcomplete, Option.bind_some]
  exact round_run (s := { clients n taken built handed with
    inflight := [acceptEntry, acceptEntry] ++ polls n
    cq := ⟨[], [], [⟨acceptEntry, (n + 5 : Nat)⟩]⟩ }) rfl (List.cons_ne_nil _ _) rfl
    (clients_not_full n taken built handed)

theorem connected_step (n : Nat) (built handed : List Entry) :
    step (connecting n built handed) (.handle (n + 1)) =
      some (connected n (built ++ [poll n]) handed) := by
  have htoken : (tokens n).lookup 0 = some .accept := tokens_lookup_accept n
  have hkey : n + 1 ∉ tokens n := tokens_notMem (Nat.lt_succ_self n)
  have hret : ¬ ((n + 5 : Nat) : Int) < 0 := by omega
  change State.handled ((connecting n built handed).walked ⟨acceptEntry, (n + 5 : Nat)⟩ [])
    ⟨acceptEntry, (n + 5 : Nat)⟩ (n + 1) = _
  simp only [State.handled, hret, if_false, State.walked, connecting, clients, Cqe.userData,
    acceptEntry, htoken, hkey]
  rfl

theorem polls_succ (n : Nat) : polls (n + 1) = polls n ++ [poll n] := by
  simp [polls, List.range_succ]

theorem connected_run (n : Nat) (built handed : List Entry) :
    run step (connected n built handed)
      [.endPass, .submitAndWait .ok, .wake, .cleanBacklog .ok, .pushAccepts, .endPass,
        .submitAndWait .ok] =
      some (clients (n + 1) 2 (built ++ [acceptEntry])
        (handed ++ [] ++ [poll n, acceptEntry])) := by
  have hinflight : [acceptEntry, acceptEntry] ++ polls (n + 1) ++ [acceptEntry] =
      [acceptEntry, acceptEntry] ++ polls n ++ [] ++ [poll n, acceptEntry] := by
    simp [polls_succ]
  unfold clients
  rw [hinflight]
  rfl

theorem connections_clients (n : Nat) (taken : Fin 4) (built handed : List Entry) :
    connections (clients n taken built handed) = n :=
  weight_tokens n

theorem clients_succ {limit n : Nat} (h : n < limit) (taken : Fin 4) (built handed : List Entry) :
    ∃ built' handed', Reachable (restrict (Within limit) step)
      (clients n taken built handed) (clients (n + 1) 2 built' handed') := by
  have hn : connections (clients n taken built handed) ≤ limit := by
    rw [connections_clients]
    exact Nat.le_of_lt h
  have hn' : connections (connected n (built ++ [] ++ [poll n]) handed) ≤ limit :=
    Nat.le_trans (Nat.le_of_eq (weight_tokens (n + 1))) h
  have hbefore : Reachable (restrict (Within limit) step) (clients n taken built handed)
      (connecting n (built ++ []) handed) :=
    reachable_of_run (connecting_run n taken built handed) hn (by simp)
  have hhandle : Reachable (restrict (Within limit) step) (connecting n (built ++ []) handed)
      (connected n (built ++ [] ++ [poll n]) handed) :=
    reachable_of_step (connected_step n (built ++ []) handed) hn
  have hafter := reachable_of_run (connected_run n (built ++ [] ++ [poll n]) handed) hn' (by simp)
  exact ⟨_, _, (hbefore.trans hhandle).trans hafter⟩

theorem clients_reachable {limit n : Nat} (h : n ≤ limit) :
    ∃ taken built handed, Reachable (restrict (Within limit) step) (State.init 4)
      (clients n taken built handed) := by
  induction n with
  | zero =>
    refine ⟨3, List.replicate 3 acceptEntry, [] ++ List.replicate 3 acceptEntry, ?_⟩
    have hsubmit : step (State.init 4) (.submitAndWait .ok) =
        some (clients 0 3 (List.replicate 3 acceptEntry)
          ([] ++ List.replicate 3 acceptEntry)) := rfl
    exact reachable_of_step hsubmit (Nat.zero_le limit)
  | succ n ih =>
    rcases ih (Nat.le_of_succ_le h) with ⟨taken, built, handed, hreach⟩
    rcases clients_succ h taken built handed with ⟨built', handed', hnext⟩
    exact ⟨2, built', handed', hreach.trans hnext⟩

theorem readable_reachable {limit n : Nat} (h : n ≤ limit) (taken : Fin 4)
    (built handed : List Entry) (ops : List Entry) (done : List Cqe) :
    Reachable (restrict (Within limit) step)
      { clients n taken built handed with
        inflight := [acceptEntry, acceptEntry] ++ ops ++ [acceptEntry]
        cq := ⟨[], [], done⟩ }
      { clients n taken built handed with
        inflight := [acceptEntry, acceptEntry] ++ [acceptEntry]
        cq := ⟨[], [], done ++ ops.map fun entry => ⟨entry, 1⟩⟩ } := by
  induction ops generalizing done with
  | nil =>
    rw [List.map_nil, List.append_nil, List.append_nil]
    exact Reachable.refl _ _
  | cons entry ops ih =>
    have hrest := ih (done ++ [⟨entry, 1⟩])
    rw [List.append_assoc done] at hrest
    have hsplit : [acceptEntry, acceptEntry] ++ (entry :: ops) ++ [acceptEntry] =
        [acceptEntry, acceptEntry] ++ entry :: (ops ++ [acceptEntry]) := rfl
    refine Reachable.trans (reachable_of_step (complete_step 1 hsplit) ?_) hrest
    exact Nat.le_trans (Nat.le_of_eq (weight_tokens n)) h

structure Reading (limit : Nat) (s : State) (pushed : Nat) (waiting : List Nat) : Prop where
  pc : s.pc = .completions
  batch : s.cq.visible = waiting.map fun i => ⟨poll i, 1⟩
  taken : s.sq.taken = 0
  published : s.sq.published = []
  unpublished : s.sq.unpublished.length = pushed
  backlog : s.backlog = []
  bufpool : s.bufpool = []
  bufAlloc : s.bufAlloc = List.range pushed
  nodup : waiting.Nodup
  tokens : ∀ i ∈ waiting, s.tokenAlloc.lookup (i + 1) = some (.poll (i + 5))
  within : connections s ≤ limit

def filled (s : State) (i key : Nat) (rest : List Cqe) : State :=
  { s.walked ⟨poll i, 1⟩ rest with bufAlloc := s.bufAlloc ++ [key] }.setToken
    (i + 1) (.read (i + 5) key)

theorem handle_poll_step {s : State} {i key : Nat} {rest : List Cqe} (hpc : s.pc = .completions)
    (hcq : s.cq.visible = ⟨poll i, 1⟩ :: rest)
    (htoken : s.tokenAlloc.lookup (i + 1) = some (.poll (i + 5))) (hpool : s.bufpool = [])
    (hkey : key ∉ s.bufAlloc) :
    step s (.handle key) =
      some ((filled s i key rest).enqueue ⟨.recv (i + 5) key bufferLen, i + 1⟩) := by
  have hret : ¬ (1 : Int) < 0 := by omega
  simp only [step, hpc, hcq, State.handled, hret, if_false, Cqe.userData, poll, htoken,
    State.takeBuffer, hpool, hkey, Option.map_some, filled, State.walked]

theorem connections_filled {s : State} {i : Nat} (key : Nat) (rest : List Cqe)
    (htoken : s.tokenAlloc.lookup (i + 1) = some (.poll (i + 5))) :
    connections (filled s i key rest) = connections s := by
  have hweight := weight_insert Token.isConnection (.read (i + 5) key) htoken
  exact Nat.add_right_cancel hweight

theorem enqueue_of_room {s : State} (entry : Entry) (h : s.sq.used < ringEntries) :
    ∃ sq, s.enqueue entry = { s with sq := sq, built := s.built ++ [entry] } ∧
      sq.taken = s.sq.taken ∧ sq.published = s.sq.published ∧
      sq.unpublished = s.sq.unpublished ++ [entry] := by
  unfold State.enqueue
  split
  · rename_i sq hpush
    exact ⟨sq, rfl, SubmissionQueue.push_eq_some hpush⟩
  · rename_i hpush
    have := SubmissionQueue.push_eq_none.mp hpush
    omega

theorem enqueue_of_full {s : State} (entry : Entry) (h : s.sq.used = ringEntries) :
    s.enqueue entry =
      { s with backlog := s.backlog ++ [entry], built := s.built ++ [entry] } := by
  unfold State.enqueue
  rw [SubmissionQueue.push_eq_none.mpr h]

theorem Reading.used {limit pushed : Nat} {s : State} {waiting : List Nat}
    (h : Reading limit s pushed waiting) : s.sq.used = pushed := by
  unfold SubmissionQueue.used
  rw [h.taken, h.published, h.unpublished, List.length_nil, Nat.zero_add]

theorem Reading.next {limit pushed i : Nat} {s : State} {waiting : List Nat}
    (h : Reading limit s pushed (i :: waiting)) (hroom : pushed < ringEntries) :
    ∃ t, Reachable (restrict (Within limit) step) s t ∧
      Reading limit t (pushed + 1) waiting := by
  have htoken := h.tokens i (List.mem_cons_self ..)
  have hkey : pushed ∉ s.bufAlloc := by
    rw [h.bufAlloc]
    simp
  have hstep := handle_poll_step h.pc h.batch htoken h.bufpool hkey
  rcases enqueue_of_room ⟨.recv (i + 5) pushed bufferLen, i + 1⟩
    (s := filled s i pushed (waiting.map fun i => ⟨poll i, 1⟩)) (h.used ▸ hroom) with
    ⟨sq, hsq, htaken, hpublished, hunpublished⟩
  rw [hsq] at hstep
  refine ⟨_, reachable_of_step hstep h.within, ?_⟩
  constructor
  case pc => exact h.pc
  case batch => rfl
  case taken => exact htaken.trans h.taken
  case published => exact hpublished.trans h.published
  case unpublished =>
    rw [hunpublished, List.length_append, List.length_singleton]
    exact congrArg (· + 1) h.unpublished
  case backlog => exact h.backlog
  case bufpool => exact h.bufpool
  case bufAlloc =>
    rw [List.range_succ, ← h.bufAlloc]
    rfl
  case nodup => exact (List.nodup_cons.mp h.nodup).2
  case tokens =>
    intro j hj
    have hne : j + 1 ≠ i + 1 := by
      intro heq
      exact (List.nodup_cons.mp h.nodup).1 (Nat.succ.inj heq ▸ hj)
    exact (AList.lookup_insert_ne hne).trans (h.tokens j (List.mem_cons_of_mem i hj))
  case within =>
    exact (connections_filled pushed _ htoken).symm ▸ h.within

theorem Reading.fill {limit pushed : Nat} {s : State} (front back : List Nat)
    (h : Reading limit s pushed (front ++ back))
    (hroom : pushed + front.length ≤ ringEntries) :
    ∃ t, Reachable (restrict (Within limit) step) s t ∧
      Reading limit t (pushed + front.length) back := by
  induction front generalizing s pushed with
  | nil => exact ⟨s, Reachable.refl _ s, h⟩
  | cons i front ih =>
    rw [List.length_cons] at hroom ⊢
    rcases h.next (by omega) with ⟨t, hreach, ht⟩
    rcases ih ht (by omega) with ⟨u, hreach', hu⟩
    refine ⟨u, hreach.trans hreach', ?_⟩
    rw [Nat.add_comm front.length 1, ← Nat.add_assoc]
    exact hu

theorem clean_drops {s : State} {entry : Entry}
    (hunpublished : s.sq.unpublished.length = ringEntries) (hbacklog : s.backlog = [entry]) :
    (s.clean .ok).dropped = s.dropped ++ [entry] := by
  have hfull : s.sq.isFull = true := by
    have hle := s.sq.used_le
    rw [SubmissionQueue.isFull_iff]
    unfold SubmissionQueue.used at hle ⊢
    omega
  have hpush : s.sq.submit.sync.push entry = none := by
    rw [SubmissionQueue.push_eq_none, SubmissionQueue.sync_used]
    simp [hunpublished]
  simp only [State.clean, hfull, if_true, State.refill, State.sync, State.submit, hbacklog, hpush]

theorem overflow_run {s : State} {entry : Entry} (hpc : s.pc = .completions)
    (hvisible : s.cq.visible = []) (hwalked : s.cq.walked ≠ [])
    (hunpublished : s.sq.unpublished.length = ringEntries) (hbacklog : s.backlog = [entry]) :
    ∃ t, run step s [.endPass, .submitAndWait .ok, .wake, .cleanBacklog .ok] = some t ∧
      t.dropped ≠ [] := by
  have hend : step s .endPass = some { s with pc := .submitAndWait } := if_pos ⟨hpc, hvisible⟩
  have hcq : s.cq.outstanding ≠ [] := by
    simp [CompletionQueue.outstanding, hwalked]
  have hwake : step { s.submit with pc := .waiting } .wake =
      some { s.submit with cq := s.cq.sync, pc := .cleanBacklog } :=
    if_pos ⟨rfl, hcq⟩
  refine ⟨{ s.submit with cq := s.cq.sync, pc := .cleanBacklog }.clean .ok, ?_, ?_⟩
  · rw [run_cons, hend, Option.bind_some, run_cons]
    change (run step { s.submit with pc := .waiting } [.wake, .cleanBacklog .ok]) = _
    rw [run_cons, hwake]
    rfl
  · have hdropped := clean_drops (s := { s.submit with cq := s.cq.sync, pc := .cleanBacklog })
      hunpublished hbacklog
    intro hnil
    exact List.append_ne_nil_of_right_ne_nil _ (List.cons_ne_nil entry [])
      (hdropped.symm.trans hnil)

theorem Reading.overflow {limit i : Nat} {s : State} (h : Reading limit s ringEntries [i]) :
    ∃ t, Reachable (restrict (Within limit) step) s t ∧ t.dropped ≠ [] := by
  have htoken := h.tokens i (List.mem_cons_self ..)
  have hkey : ringEntries ∉ s.bufAlloc := by
    rw [h.bufAlloc]
    simp
  have hhandle := handle_poll_step h.pc h.batch htoken h.bufpool hkey
  rw [List.map_nil, enqueue_of_full (s := filled s i ringEntries []) _ h.used] at hhandle
  have hwithin : connections (filled s i ringEntries []) ≤ limit := by
    rw [connections_filled ringEntries [] htoken]
    exact h.within
  have hbacklog : (filled s i ringEntries []).backlog = [] := h.backlog
  rw [hbacklog] at hhandle
  have hwalked : (filled s i ringEntries []).cq.walked ≠ [] :=
    List.append_ne_nil_of_right_ne_nil _ (List.cons_ne_nil _ _)
  rcases overflow_run (s := { filled s i ringEntries [] with
    backlog := [⟨.recv (i + 5) ringEntries bufferLen, i + 1⟩]
    built := s.built ++ [⟨.recv (i + 5) ringEntries bufferLen, i + 1⟩] })
    h.pc rfl hwalked h.unpublished rfl with ⟨t, hrun, hdropped⟩
  refine ⟨t, (reachable_of_step hhandle h.within).trans ?_, hdropped⟩
  exact reachable_of_run hrun hwithin (by simp)

theorem waiting_reading {limit n : Nat} (hn : n ≤ limit) (hpos : 0 < n) (taken : Fin 4)
    (built handed : List Entry) :
    ∃ s, Reachable (restrict (Within limit) step) (clients n taken built handed) s ∧
      Reading limit s 0 (List.range n) := by
  have hreadable := readable_reachable hn taken built handed (polls n) []
  have hcqes : (polls n).map (fun entry => (⟨entry, 1⟩ : Cqe)) ≠ [] := by
    simp only [polls, ne_eq, List.map_eq_nil_iff, List.range_eq_nil]
    omega
  have hround := round_run (s := { clients n taken built handed with
    inflight := [acceptEntry, acceptEntry] ++ [acceptEntry]
    cq := ⟨[], [], [] ++ (polls n).map fun entry => ⟨entry, 1⟩⟩ }) rfl hcqes rfl
    (clients_not_full n taken built handed)
  have hwithin : weight Token.isConnection (tokens n) ≤ limit := by
    rw [weight_tokens]
    exact hn
  refine ⟨_, hreadable.trans (reachable_of_run hround hwithin (by simp)), ?_⟩
  constructor
  case pc => rfl
  case batch => simp [State.accepts, CompletionQueue.sync, polls]
  case taken => rfl
  case published => rfl
  case unpublished => rfl
  case backlog => rfl
  case bufpool => rfl
  case bufAlloc => rfl
  case nodup => exact List.nodup_range
  case tokens =>
    intro i hi
    exact tokens_lookup (List.mem_range.mp hi)
  case within => exact hwithin

/-- With one connection more than the queue has places, a burst loses an entry. -/
theorem burst {limit : Nat} (h : ringEntries < limit) :
    ∃ s, Reachable (restrict (Within limit) step) (State.init 4) s ∧ s.dropped ≠ [] := by
  have hle : ringEntries + 1 ≤ limit := h
  rcases clients_reachable hle with ⟨taken, built, handed, hclients⟩
  rcases waiting_reading h (Nat.succ_pos _) taken built handed with ⟨s, hs, hreading⟩
  rw [List.range_succ] at hreading
  rcases hreading.fill _ _ (by rw [List.length_range, Nat.zero_add]) with ⟨t, ht, hfull⟩
  rw [List.length_range, Nat.zero_add] at hfull
  rcases hfull.overflow with ⟨u, hu, hdropped⟩
  exact ⟨u, ((hclients.trans hs).trans ht).trans hu, hdropped⟩

/-- No entry is lost or doubled in any run with at most so many connections exactly
when the queue has a place for each of them. -/
theorem kept_iff_limit_le (limit : Nat) :
    (∀ listenFd s, Reachable (restrict (Within limit) step) (State.init listenFd) s → Kept s) ↔
      limit ≤ ringEntries := by
  constructor
  · intro hkept
    by_contra hlimit
    rcases burst (Nat.lt_of_not_le hlimit) with ⟨s, hreach, hdropped⟩
    exact hdropped ((kept_iff_dropped_nil hreach.of_restrict).mp (hkept 4 s hreach))
  · intro hlimit listenFd s hreach
    rw [kept_iff_dropped_nil hreach.of_restrict]
    exact dropped_nil_of_within (hreach.restrict_mono fun _ _ hs => Nat.le_trans hs hlimit)

/-- The socket of every one of 4097 clients becomes readable in one batch, and an entry
is lost. -/
theorem burst_not_kept : ∃ s, Reachable step (State.init 4) s ∧ ¬ Kept s := by
  rcases burst (Nat.lt_succ_self ringEntries) with ⟨s, hreach, hdropped⟩
  refine ⟨s, hreach.of_restrict, ?_⟩
  rw [kept_iff_dropped_nil hreach.of_restrict]
  exact hdropped

end IoWrapper.TokenEcho.Burst
