import IoWrapper.TokenEcho.Operations
import IoWrapper.TokenEcho.Transfers

/-! Whose a descriptor is. A connection is with the completion that has accepted it, then with
one token, and it is closed when that token goes. -/
namespace IoWrapper.TokenEcho.Descriptors
open Core.Machine Core.Rings Core.Tables Core.Pool Server Operations Transfers

def uncompleted (s : Server.State) : List Entry :=
  s.sq.published ++ s.sq.unpublished ++ s.backlog ++ s.inflight

def arrivals (s : Server.State) : List Cqe := s.cq.visible ++ s.cq.arrived

/-- What a completion makes of the token of a connection, with the next operation. -/
inductive Turn : Token → Int → Token → Op → Prop where
  | poll {fd bufIndex : Nat} {result : Int} :
      Turn (.poll fd) result (.read fd bufIndex) (.recv fd bufIndex bufferLen)
  | read {fd bufIndex : Nat} {result : Int} (hret : 0 < result) :
      Turn (.read fd bufIndex) result (.write fd bufIndex 0 result.toNat)
        (.send fd bufIndex result.toNat)
  | written {fd bufIndex offset len : Nat} {result : Int} (hend : len ≤ offset + result.toNat) :
      Turn (.write fd bufIndex offset len) result (.poll fd) (.pollAdd fd)
  | short {fd bufIndex offset len : Nat} {result : Int} (hmore : offset + result.toNat < len) :
      Turn (.write fd bufIndex offset len) result
        (.write fd bufIndex (offset + result.toNat) (len - (offset + result.toNat)))
        (.write fd bufIndex (offset + result.toNat) (len - (offset + result.toNat)))

inductive Flow (s t : Server.State) : Prop where
  | idle (htokens : t.tokenAlloc = s.tokenAlloc) (hclosed : t.closed = s.closed)
      (hops : ∀ entry ∈ uncompleted t, entry ∈ uncompleted s ∨ entry = s.accept.entry)
      (harrivals : arrivals t = arrivals s)
  | errored (cqe : Cqe) (hret : cqe.result < 0) (htokens : t.tokenAlloc = s.tokenAlloc)
      (hclosed : t.closed = s.closed) (hops : uncompleted t = uncompleted s)
      (harrivals : arrivals s = cqe :: arrivals t)
  | opened (cqe : Cqe) (key : Nat) (hret : 0 ≤ cqe.result)
      (htoken : s.tokenAlloc.lookup cqe.userData = some .accept) (hkey : key ∉ s.tokenAlloc)
      (htokens : t.tokenAlloc = s.tokenAlloc.insert key (.poll cqe.result.toNat))
      (hclosed : t.closed = s.closed)
      (hops : ∀ entry ∈ uncompleted t,
        entry ∈ uncompleted s ∨ entry = ⟨.pollAdd cqe.result.toNat, key⟩)
      (harrivals : arrivals s = cqe :: arrivals t)
  | turned (cqe : Cqe) (token token' : Token) (op : Op) (hret : 0 ≤ cqe.result)
      (hturn : Turn token cqe.result token' op)
      (htoken : s.tokenAlloc.lookup cqe.userData = some token)
      (htokens : t.tokenAlloc = s.tokenAlloc.insert cqe.userData token')
      (hclosed : t.closed = s.closed)
      (hops : ∀ entry ∈ uncompleted t, entry ∈ uncompleted s ∨ entry = ⟨op, cqe.userData⟩)
      (harrivals : arrivals s = cqe :: arrivals t)
  | hungUp (cqe : Cqe) (fd bufIndex : Nat)
      (htoken : s.tokenAlloc.lookup cqe.userData = some (.read fd bufIndex))
      (htokens : t.tokenAlloc = s.tokenAlloc.erase cqe.userData)
      (hclosed : t.closed = s.closed ++ [fd]) (hops : uncompleted t = uncompleted s)
      (harrivals : arrivals s = cqe :: arrivals t)

section Queues

variable {s : Server.State} {entry own : Entry}

@[simp] theorem enqueue_closed (s : Server.State) (entry : Entry) :
    (s.enqueue entry).closed = s.closed := by
  unfold State.enqueue
  split <;> rfl

@[simp] theorem settled_closed (s : Server.State) : s.settled.closed = s.closed := by
  unfold State.settled
  split <;> rfl

@[simp] theorem arrivals_enqueue (s : Server.State) (entry : Entry) :
    arrivals (s.enqueue entry) = arrivals s := by
  unfold State.enqueue
  split <;> rfl

@[simp] theorem arrivals_settled (s : Server.State) : arrivals s.settled = arrivals s := by
  rw [arrivals, settled_cq]
  rfl

theorem mem_uncompleted_enqueue (h : own ∈ uncompleted (s.enqueue entry)) :
    own ∈ uncompleted s ∨ own = entry := by
  unfold State.enqueue at h
  cases hpush : s.sq.push entry with
  | some sq =>
    rw [hpush] at h
    rcases SubmissionQueue.push_eq_some hpush with ⟨-, hpublished, hunpublished⟩
    simp only [uncompleted, hpublished, hunpublished, List.mem_append, List.mem_singleton] at h ⊢
    tauto
  | none =>
    rw [hpush] at h
    simp only [uncompleted, List.mem_append, List.mem_singleton] at h ⊢
    tauto

theorem mem_uncompleted_submit : own ∈ uncompleted s.submit ↔ own ∈ uncompleted s := by
  simp only [uncompleted, State.submit, SubmissionQueue.submit_published,
    SubmissionQueue.submit_unpublished, List.mem_append, List.not_mem_nil]
  tauto

theorem mem_uncompleted_sync : own ∈ uncompleted s.sync ↔ own ∈ uncompleted s := by
  simp [uncompleted, State.sync]

theorem mem_uncompleted_settled : own ∈ uncompleted s.settled ↔ own ∈ uncompleted s := by
  unfold State.settled
  split
  · rw [mem_uncompleted_sync, mem_uncompleted_submit]
  · rw [mem_uncompleted_sync]

theorem mem_uncompleted_popped {rest : List Entry} (hbacklog : s.backlog = entry :: rest)
    (h : own ∈ uncompleted { s.settled with backlog := rest }) : own ∈ uncompleted s := by
  rw [← mem_uncompleted_settled]
  simp only [uncompleted, settled_backlog, hbacklog, List.mem_append, List.mem_cons] at h ⊢
  tauto

theorem mem_uncompleted_refilled {rest : List Entry} {sq : Sq}
    (hbacklog : s.backlog = entry :: rest) (hpush : s.settled.sq.push entry = some sq)
    (h : own ∈ uncompleted { s.settled with sq := sq, backlog := rest }) :
    own ∈ uncompleted s := by
  rcases SubmissionQueue.push_eq_some hpush with ⟨-, hpublished, hunpublished⟩
  rw [← mem_uncompleted_settled]
  simp only [uncompleted, hpublished, hunpublished, settled_backlog, hbacklog, List.mem_append,
    List.mem_cons, List.not_mem_nil] at h ⊢
  tauto

theorem mem_uncompleted_accepts (h : own ∈ uncompleted s.accepts) :
    own ∈ uncompleted s ∨ own = s.accept.entry := by
  rcases SubmissionQueue.pushTimes_spec s.accept.entry s.accept.count s.sq with
    ⟨pushed, -, hpublished, hunpublished⟩
  simp only [uncompleted, State.accepts, AcceptCount.pushTo, SubmissionQueue.sync_published,
    SubmissionQueue.sync_unpublished, hpublished, hunpublished, List.mem_append,
    List.mem_replicate, List.not_mem_nil] at h ⊢
  tauto

theorem arrivals_walked {cqe : Cqe} {rest : List Cqe} (hcq : s.cq.visible = cqe :: rest) :
    arrivals s = cqe :: arrivals (s.walked cqe rest) := by
  rw [arrivals, hcq]
  rfl

end Queues

theorem turn_of_write {fd bufIndex offset len : Nat} {result : Int} {returned : Option Nat}
    {token : Token} {op : Op}
    (h : afterWrite fd bufIndex offset len result.toNat = (returned, token, op)) :
    Turn (.write fd bufIndex offset len) result token op := by
  unfold afterWrite at h
  by_cases hend : len ≤ offset + result.toNat
  · rw [if_pos hend] at h
    cases h
    exact .written hend
  · rw [if_neg hend] at h
    cases h
    exact .short (Nat.lt_of_not_le hend)

theorem flow_step {s t : Server.State} {event : Server.Event}
    (hlinked : Linked s.accept.entry s.tokenAlloc (outstanding s))
    (hown : isComplete event = false) (h : Server.Step s event t) : Flow s t := by
  cases h with
  | submitted => exact .idle rfl rfl (fun _ h => Or.inl (mem_uncompleted_submit.mp h)) rfl
  | busy | woke =>
    refine .idle rfl rfl (fun _ h => Or.inl h) ?_
    simp [arrivals, CompletionQueue.sync]
  | failed | cleanBusy | passEnded => exact .idle rfl rfl (fun _ h => Or.inl h) rfl
  | cleaned =>
    exact .idle (settled_tokenAlloc s) (settled_closed s)
      (fun _ h => Or.inl (mem_uncompleted_settled.mp h)) (arrivals_settled s)
  | refilled hpc hbacklog hpush =>
    exact .idle (settled_tokenAlloc s) (settled_closed s)
      (fun _ h => Or.inl (mem_uncompleted_refilled hbacklog hpush h)) (arrivals_settled s)
  | dropped hpc hbacklog hpush =>
    exact .idle (settled_tokenAlloc s) (settled_closed s)
      (fun _ h => Or.inl (mem_uncompleted_popped hbacklog h)) (arrivals_settled s)
  | accepts => exact .idle rfl rfl (fun _ => mem_uncompleted_accepts) rfl
  | handledError hpc hcq hret => exact .errored _ hret rfl rfl rfl (arrivals_walked hcq)
  | panicked hpc hcq hret htoken =>
    have hperm := outstanding_walked hcq
    exact absurd htoken (hlinked.answered hperm).lookup_ne_none
  | handledAccept hpc hcq hret htoken hkey =>
    refine .opened _ _ hret htoken hkey (enqueue_tokenAlloc _ _) (enqueue_closed _ _)
      (fun _ => mem_uncompleted_enqueue) ?_
    rw [arrivals_enqueue]
    exact arrivals_walked hcq
  | handledPoll hpc hcq hret htoken htakes =>
    refine .turned _ _ _ _ hret .poll htoken (enqueue_tokenAlloc _ _) (enqueue_closed _ _)
      (fun _ => mem_uncompleted_enqueue) ?_
    rw [arrivals_enqueue]
    exact arrivals_walked hcq
  | handledHangup hpc hcq hret htoken =>
    exact .hungUp _ _ _ htoken rfl rfl rfl (arrivals_walked hcq)
  | handledRead hpc hcq hret htoken =>
    refine .turned _ _ _ _ (Int.le_of_lt hret) (.read hret) htoken (enqueue_tokenAlloc _ _)
      (enqueue_closed _ _) (fun _ => mem_uncompleted_enqueue) ?_
    rw [arrivals_enqueue]
    exact arrivals_walked hcq
  | handledWrite hpc hcq hret htoken hnext =>
    refine .turned _ _ _ _ hret (turn_of_write hnext) htoken (enqueue_tokenAlloc _ _)
      (enqueue_closed _ _) (fun _ => mem_uncompleted_enqueue) ?_
    rw [arrivals_enqueue]
    exact arrivals_walked hcq
  | completed => cases hown

theorem Turn.fd_eq {token token' : Token} {result : Int} {op : Op}
    (h : Turn token result token' op) : token'.fd = token.fd := by
  cases h <;> rfl

theorem fd_of_serves {op : Op} {token : Token} (h : Serves op token) :
    token.fd = some (op.fd) := by
  cases h <;> rfl

def claims (fd : Nat) (s : Server.State) : Nat :=
  weight (Token.on fd) s.tokenAlloc + (arrivals s).countP (Cqe.opens fd)

section Claims

variable {s t : Server.State} {accept : Entry} {tokens : Table Token} {ops : List Entry}

theorem eq_accept_of_linked {entry : Entry} (h : Linked accept tokens ops) (hentry : entry ∈ ops)
    (htoken : tokens.lookup entry.userData = some .accept) : entry = accept := by
  rcases h.serves entry hentry with heq | ⟨token, hlookup, hserves⟩
  · exact heq
  · cases htoken.symm.trans hlookup
    exact absurd rfl (serves_ne_accept hserves)

theorem serves_of_linked {entry : Entry} {token : Token} (h : Linked accept tokens ops)
    (hentry : entry ∈ ops) (htoken : tokens.lookup entry.userData = some token)
    (hopen : token ≠ .accept) : Serves entry.op token := by
  rcases h.serves entry hentry with heq | ⟨token', hlookup, hserves⟩
  · rw [heq, h.slot] at htoken
    exact absurd (Option.some.inj htoken).symm hopen
  · cases htoken.symm.trans hlookup
    exact hserves

theorem opens_of_serves {cqe : Cqe} {token : Token} (h : Serves cqe.entry.op token) (fd : Nat) :
    Cqe.opens fd cqe = false := by
  unfold Cqe.opens
  generalize cqe.entry.op = op at h ⊢
  cases h <;> rfl

theorem opens_of_neg {cqe : Cqe} (h : cqe.result < 0) (fd : Nat) : Cqe.opens fd cqe = false := by
  unfold Cqe.opens
  cases cqe.entry.op with
  | accept => exact decide_eq_false (by omega)
  | _ => rfl

theorem mem_outstanding_of_arrivals {cqe : Cqe} (h : cqe ∈ arrivals s) :
    cqe.entry ∈ outstanding s :=
  List.mem_append_right _ (List.mem_map_of_mem h)

theorem claims_flow (hlinked : Linked s.accept.entry s.tokenAlloc (outstanding s))
    (haccept : ∃ listenFd, s.accept.entry.op = .accept listenFd) (hflow : Flow s t) (fd : Nat) :
    claims fd t + (t.closed.drop s.closed.length).count fd = claims fd s := by
  cases hflow with
  | idle htokens hclosed hops harrivals =>
    rw [claims, claims, htokens, harrivals, hclosed, List.drop_length]
    rfl
  | errored cqe hret htokens hclosed hops harrivals =>
    rw [claims, claims, htokens, harrivals, hclosed, List.drop_length,
      List.countP_cons_of_neg (by simp [opens_of_neg hret])]
    rfl
  | opened cqe key hret htoken hkey htokens hclosed hops harrivals =>
    have hmem : cqe ∈ arrivals s := by simp [harrivals]
    have hentry := eq_accept_of_linked hlinked (mem_outstanding_of_arrivals hmem) htoken
    have hopens : Cqe.opens fd cqe = decide (cqe.result = fd) := by
      rcases haccept with ⟨listenFd, hop⟩
      simp only [Cqe.opens, hentry, hop]
    have hon : Token.on fd (.poll cqe.result.toNat) = if cqe.result = fd then 1 else 0 := by
      simp only [Token.on, Token.fd, Option.some.injEq]
      congr 1
      rw [eq_iff_iff]
      omega
    rw [claims, claims, htokens, harrivals, hclosed, List.drop_length,
      weight_insert_of_notMem _ _ hkey, List.countP_cons, hopens, hon, List.count_nil]
    simp only [decide_eq_true_eq]
    omega
  | turned cqe token token' op hret hturn htoken htokens hclosed hops harrivals =>
    have hmem : cqe ∈ arrivals s := by simp [harrivals]
    have hopen : token ≠ .accept := by
      rintro rfl
      cases hturn
    have hserves := serves_of_linked hlinked (mem_outstanding_of_arrivals hmem) htoken hopen
    have hsame : Token.on fd token' = Token.on fd token := by
      rw [Token.on, Token.on, hturn.fd_eq]
    have hweight := weight_insert (Token.on fd) token' htoken
    rw [claims, claims, htokens, harrivals, hclosed, List.drop_length,
      List.countP_cons_of_neg (by simp [opens_of_serves hserves]), List.count_nil]
    omega
  | hungUp cqe own bufIndex htoken htokens hclosed hops harrivals =>
    have hmem : cqe ∈ arrivals s := by simp [harrivals]
    have hserves :=
      serves_of_linked hlinked (mem_outstanding_of_arrivals hmem) htoken Token.noConfusion
    have hweight := weight_erase (Token.on fd) htoken
    have hon : Token.on fd (.read own bufIndex) = [own].count fd := by
      rw [List.count_singleton]
      simp [Token.on, Token.fd]
    rw [claims, claims, htokens, harrivals, hclosed, List.drop_left,
      List.countP_cons_of_neg (by simp [opens_of_serves hserves]), ← hon]
    omega

end Claims

/-- Every open descriptor but that of the listener is with one token or one completion, and no
other descriptor is with any. -/
structure Owned (listenFd : Nat) (s : Sys) : Prop where
  listener : s.fds listenFd ≠ none
  claimed : ∀ fd, claims fd s.server = if fd ≠ listenFd ∧ s.fds fd ≠ none then 1 else 0

section Steps

variable {listenFd : Nat} {s t : Sys}

@[simp] theorem note_fds (s : Sys) (fd : Nat) (transfers : List (Core.Relay.Transfer UInt8)) :
    (s.note fd transfers).fds = s.fds := by
  unfold Sys.note
  cases s.fds fd <;> rfl

theorem claims_completed {i : Nat} {cqe : Cqe} (fd : Nat) (s : Server.State) :
    claims fd { s with inflight := s.inflight.eraseIdx i, cq := s.cq.post cqe } =
      claims fd s + if Cqe.opens fd cqe then 1 else 0 := by
  simp only [claims, arrivals, CompletionQueue.post, ← List.append_assoc, List.countP_append,
    List.countP_singleton]
  omega

theorem Owned.serve {u : Server.State} (h : Owned listenFd s)
    (hclaims : ∀ fd, claims fd u + (u.closed.drop s.server.closed.length).count fd =
      claims fd s.server) : Owned listenFd (s.serve u) := by
  have hopen : ∀ fd ∈ u.closed.drop s.server.closed.length,
      claims fd s.server = 1 ∧ claims fd u = 0 := by
    intro fd hfd
    have hcount := List.count_pos_iff.mpr hfd
    have hbefore := hclaims fd
    rw [h.claimed fd] at hbefore ⊢
    split at hbefore
    · exact ⟨if_pos ‹_›, by omega⟩
    · omega
  constructor
  case listener =>
    have hnone : listenFd ∉ u.closed.drop s.server.closed.length := by
      intro hfd
      have hone := (hopen listenFd hfd).1
      rw [h.claimed, if_neg (by simp)] at hone
      cases hone
    simp only [Sys.serve, if_neg hnone]
    exact h.listener
  case claimed =>
    intro fd
    by_cases hfd : fd ∈ u.closed.drop s.server.closed.length
    · simp only [Sys.serve, if_pos hfd]
      rw [(hopen fd hfd).2, if_neg (by simp)]
    · have hbefore := hclaims fd
      rw [List.count_eq_zero.mpr hfd, h.claimed fd] at hbefore
      simp only [Sys.serve, if_neg hfd]
      exact hbefore

theorem Owned.complete_same {i : Nat} {cqe : Cqe} {data : List UInt8} (h : Owned listenFd s)
    (hopens : ∀ fd, Cqe.opens fd cqe = false)
    (hfds : (s.transfer cqe.result data cqe.entry.op).fds = s.fds) :
    Owned listenFd { s.transfer cqe.result data cqe.entry.op with
      server := { s.server with
        inflight := s.server.inflight.eraseIdx i
        cq := s.server.cq.post cqe } } := by
  constructor
  case listener =>
    dsimp only
    rw [hfds]
    exact h.listener
  case claimed =>
    intro fd
    dsimp only
    rw [claims_completed fd s.server, hfds, hopens, h.claimed]
    rfl

theorem Owned.complete_accept {i own : Nat} {cqe : Cqe} {data : List UInt8} (h : Owned listenFd s)
    (hop : cqe.entry.op = .accept own) (hret : 0 ≤ cqe.result)
    (hfree : s.fds cqe.result.toNat = none) :
    Owned listenFd { s.transfer cqe.result data cqe.entry.op with
      server := { s.server with
        inflight := s.server.inflight.eraseIdx i
        cq := s.server.cq.post cqe } } := by
  have hne : cqe.result.toNat ≠ listenFd := by
    intro heq
    rw [heq] at hfree
    exact h.listener hfree
  have hopens : ∀ fd : Nat, Cqe.opens fd cqe = decide (fd = cqe.result.toNat) := by
    intro fd
    simp only [Cqe.opens, hop]
    congr 1
    rw [eq_iff_iff]
    omega
  constructor
  case listener =>
    simp only [hop, Sys.transfer, if_pos hret]
    rw [Function.update_of_ne hne.symm]
    exact h.listener
  case claimed =>
    intro fd
    dsimp only
    rw [claims_completed fd s.server, hopens, h.claimed]
    simp only [hop, Sys.transfer, if_pos hret]
    by_cases hfd : fd = cqe.result.toNat
    · subst hfd
      simp [hfree, hne]
    · rw [Function.update_of_ne hfd]
      simp [hfd]

theorem Owned.complete {i : Nat} {cqe : Cqe} {data : List UInt8} (h : Owned listenFd s)
    (hdelivers : Delivers s cqe.result data cqe.entry.op) :
    Owned listenFd { s.transfer cqe.result data cqe.entry.op with
      server := { s.server with
        inflight := s.server.inflight.eraseIdx i
        cq := s.server.cq.post cqe } } := by
  cases hop : cqe.entry.op with
  | accept own =>
    rw [hop] at hdelivers
    rw [← hop]
    by_cases hret : 0 ≤ cqe.result
    · exact h.complete_accept hop hret (hdelivers.2 hret)
    · refine h.complete_same (opens_of_neg (by omega)) ?_
      simp only [hop, Sys.transfer, if_neg hret]
  | pollAdd | recv | send | write =>
    rw [← hop]
    refine h.complete_same (fun fd => by simp only [Cqe.opens, hop]) ?_
    simp [hop, Sys.transfer]

theorem owned_init (listenFd : Nat) : Owned listenFd (Sys.init listenFd) := by
  constructor
  case listener => simp [Sys.init]
  case claimed =>
    intro fd
    have hnone : ¬(fd ≠ listenFd ∧ (Sys.init listenFd).fds fd ≠ none) := by
      rintro ⟨hne, hopen⟩
      exact hopen (by simp [Sys.init, hne])
    rw [if_neg hnone]
    rfl

end Steps

theorem flow_of_reachable {listenFd : Nat} {s : Server.State} {t : Server.State}
    {event : Server.Event} (h : Reachable Server.step (Server.State.init listenFd) s)
    (hown : isComplete event = false) (hstep : Server.step s event = some t) : Flow s t :=
  flow_step (linked_of_reachable h) hown (Server.step_sound hstep)

theorem owned_of_reachable {listenFd : Nat} {s : Sys}
    (h : Reachable Transfers.step (Sys.init listenFd) s) : Owned listenFd s := by
  apply h.invariant (Owned listenFd) (owned_init listenFd)
  intro s event t hreach hs hstep
  have hserver := server_reachable hreach
  cases Transfers.step_sound hstep with
  | served hown hnext =>
    apply hs.serve
    intro fd
    refine claims_flow (linked_of_reachable hserver) ⟨listenFd, ?_⟩
      (flow_of_reachable hserver hown hnext) fd
    rw [accept_entry_of_reachable hserver]
  | completed hentry hdelivers => exact hs.complete hdelivers

/-- A descriptor other than that of the listener is open just as long as one token or one
completion that is still to be handled is for it; and there are never two. -/
theorem open_iff_claimed {listenFd : Nat} {s : Sys}
    (h : Reachable Transfers.step (Sys.init listenFd) s)
    {fd : Nat} (hne : fd ≠ listenFd) :
    claims fd s.server ≤ 1 ∧ (s.fds fd ≠ none ↔ claims fd s.server = 1) := by
  have hclaimed := (owned_of_reachable h).claimed fd
  by_cases hopen : s.fds fd ≠ none
  · rw [if_pos ⟨hne, hopen⟩] at hclaimed
    simp [hclaimed, hopen]
  · rw [if_neg (fun h => hopen h.2)] at hclaimed
    simp [hclaimed, hopen]

theorem open_iff_claimed_one_client : ∃ s, Reachable Transfers.step (Sys.init 3) s ∧
    s.fds 5 = some 1 ∧ claims 5 s.server ≤ 1 ∧ (s.fds 5 ≠ none ↔ claims 5 s.server = 1) := by
  have hview : (run Transfers.step (Sys.init 3) oneConnect).map (fun s => s.fds 5) =
      some (some 1) := by decide +kernel
  rcases Reachable.of_view hview with ⟨s, hreach, hopen⟩
  exact ⟨s, hreach, hopen, open_iff_claimed hreach (by decide)⟩

end IoWrapper.TokenEcho.Descriptors
