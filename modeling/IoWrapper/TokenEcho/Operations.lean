import IoWrapper.TokenEcho.Server

/-! The operations that the server waits for. What moves between the queues, the
backlog and the kernel stays the same list of operations; the moves that change it
say which operation is answered and what is put in its place. From them: each
operation belongs to the token it names, and a connection has at most one. -/
namespace IoWrapper.TokenEcho.Operations
open Core.Machine Core.Rings Core.Tables Core.Pool Server

/-- The operations queued, in the backlog, in the kernel, or completed and not yet
processed. -/
def outstanding (s : State) : List Entry :=
  s.sq.published ++ s.sq.unpublished ++ s.backlog ++ s.inflight ++
    (s.cq.visible ++ s.cq.arrived).map Cqe.entry

inductive Serves : Op → Token → Prop where
  | poll (fd : Nat) : Serves (.pollAdd fd) (.poll fd)
  | recv (fd bufIndex len : Nat) : Serves (.recv fd bufIndex len) (.read fd bufIndex)
  | send (fd bufIndex len : Nat) : Serves (.send fd bufIndex len) (.write fd bufIndex 0 len)
  | write (fd bufIndex offset len : Nat) :
      Serves (.write fd bufIndex offset len) (.write fd bufIndex offset len)

inductive Move (s t : State) : Prop where
  | idle (haccept : t.accept = s.accept) (htokens : t.tokenAlloc = s.tokenAlloc)
      (hpool : t.bufpool = s.bufpool) (halloc : t.bufAlloc = s.bufAlloc)
      (hops : (outstanding t).Perm (outstanding s))
  | dropped (entry : Entry) (hentry : entry ∈ s.backlog) (haccept : t.accept = s.accept)
      (htokens : t.tokenAlloc = s.tokenAlloc) (hpool : t.bufpool = s.bufpool)
      (halloc : t.bufAlloc = s.bufAlloc) (hfull : s.settled.sq.used = ringEntries)
      (hpc : s.pc = .cleanBacklog)
      (hops : (outstanding s).Perm (entry :: outstanding t))
  | armed (pushed : Nat) (haccept : t.accept.entry = s.accept.entry)
      (hcount : s.accept.count = t.accept.count + pushed)
      (htokens : t.tokenAlloc = s.tokenAlloc) (hpool : t.bufpool = s.bufpool)
      (halloc : t.bufAlloc = s.bufAlloc)
      (hops : (outstanding t).Perm (List.replicate pushed s.accept.entry ++ outstanding s))
  | errored (cqe : Cqe) (hcqe : cqe ∈ s.cq.visible) (hret : cqe.result < 0)
      (haccept : t.accept = s.accept) (htokens : t.tokenAlloc = s.tokenAlloc)
      (hpool : t.bufpool = s.bufpool) (halloc : t.bufAlloc = s.bufAlloc)
      (hops : (outstanding s).Perm (cqe.entry :: outstanding t))
  | panicked (entry : Entry) (htoken : s.tokenAlloc.lookup entry.userData = none)
      (haccept : t.accept = s.accept) (htokens : t.tokenAlloc = s.tokenAlloc)
      (hpool : t.bufpool = s.bufpool) (halloc : t.bufAlloc = s.bufAlloc)
      (hops : (outstanding s).Perm (entry :: outstanding t))
  | opened (entry : Entry) (key fd : Nat)
      (htoken : s.tokenAlloc.lookup entry.userData = some .accept) (hkey : key ∉ s.tokenAlloc)
      (haccept : t.accept = { s.accept with count := s.accept.count + 1 })
      (htokens : t.tokenAlloc = s.tokenAlloc.insert key (.poll fd))
      (hpool : t.bufpool = s.bufpool) (halloc : t.bufAlloc = s.bufAlloc) (rest : List Entry)
      (hops : (outstanding s).Perm (entry :: rest))
      (hops' : (outstanding t).Perm (⟨.pollAdd fd, key⟩ :: rest))
  | filled (entry : Entry) (fd bufIndex : Nat)
      (htoken : s.tokenAlloc.lookup entry.userData = some (.poll fd))
      (haccept : t.accept = s.accept)
      (htokens : t.tokenAlloc = s.tokenAlloc.insert entry.userData (.read fd bufIndex))
      (htakes : Takes s bufIndex t.bufpool t.bufAlloc) (rest : List Entry)
      (hops : (outstanding s).Perm (entry :: rest))
      (hops' : (outstanding t).Perm (⟨.recv fd bufIndex bufferLen, entry.userData⟩ :: rest))
  | hungUp (entry : Entry) (fd bufIndex : Nat)
      (htoken : s.tokenAlloc.lookup entry.userData = some (.read fd bufIndex))
      (haccept : t.accept = s.accept)
      (htokens : t.tokenAlloc = s.tokenAlloc.erase entry.userData)
      (hpool : t.bufpool = bufIndex :: s.bufpool) (halloc : t.bufAlloc = s.bufAlloc)
      (hops : (outstanding s).Perm (entry :: outstanding t))
  | advanced (entry : Entry) (token token' : Token) (op : Op) (returned : Option Nat)
      (htoken : s.tokenAlloc.lookup entry.userData = some token) (hopen : token ≠ .accept)
      (haccept : t.accept = s.accept) (hserves : Serves op token')
      (hbuffer : token.buffer = returned.or (token'.buffer))
      (hkept : returned ≠ none → token'.buffer = none)
      (htokens : t.tokenAlloc = s.tokenAlloc.insert entry.userData token')
      (hpool : t.bufpool = returned.toList ++ s.bufpool) (halloc : t.bufAlloc = s.bufAlloc)
      (rest : List Entry) (hops : (outstanding s).Perm (entry :: rest))
      (hops' : (outstanding t).Perm (⟨op, entry.userData⟩ :: rest))

theorem outstanding_submit (s : State) : (outstanding s.submit).Perm (outstanding s) := by
  rw [List.perm_iff_count]
  intro entry
  simp only [outstanding, State.submit, SubmissionQueue.submit_published,
    SubmissionQueue.submit_unpublished, List.count_append, List.count_nil]
  omega

theorem outstanding_sync (s : State) : outstanding s.sync = outstanding s := by
  simp [outstanding, State.sync]

theorem outstanding_settled (s : State) : (outstanding s.settled).Perm (outstanding s) := by
  unfold State.settled
  split
  · rw [outstanding_sync]
    exact outstanding_submit s
  · rw [outstanding_sync]

theorem outstanding_reloaded (s : State) (pc : Pc) :
    outstanding { s with cq := s.cq.sync, pc := pc } = outstanding s := by
  simp [outstanding, CompletionQueue.sync]

theorem outstanding_push {s : State} {sq : Sq} {entry : Entry} (h : s.sq.push entry = some sq) :
    (outstanding { s with sq := sq }).Perm (entry :: outstanding s) := by
  have hsq := SubmissionQueue.push_eq_some h
  rw [List.perm_iff_count]
  intro own
  simp only [outstanding, hsq.2.1, hsq.2.2, List.count_append, List.count_cons, List.count_nil]
  omega

theorem outstanding_popped {s : State} {entry : Entry} {rest : List Entry}
    (h : s.backlog = entry :: rest) :
    (outstanding s).Perm (entry :: outstanding { s with backlog := rest }) := by
  rw [List.perm_iff_count]
  intro own
  simp only [outstanding, h, List.count_append, List.count_cons]
  omega

theorem outstanding_enqueue (s : State) (entry : Entry) :
    (outstanding (s.enqueue entry)).Perm (entry :: outstanding s) := by
  unfold State.enqueue
  split
  · rename_i sq hpush
    exact outstanding_push hpush
  · rw [List.perm_iff_count]
    intro own
    simp only [outstanding, List.count_append, List.count_cons, List.count_nil]
    omega

theorem outstanding_walked {s : State} {cqe : Cqe} {rest : List Cqe}
    (hcq : s.cq.visible = cqe :: rest) :
    (outstanding s).Perm (cqe.entry :: outstanding (s.walked cqe rest)) := by
  rw [List.perm_iff_count]
  intro own
  simp only [outstanding, State.walked, CompletionQueue.next, hcq, List.cons_append, List.map_cons,
    List.count_append, List.count_cons]
  omega

theorem outstanding_completed {s : State} {i : Nat} {entry : Entry} (result : Int)
    (h : s.inflight[i]? = some entry) :
    (outstanding { s with
      inflight := s.inflight.eraseIdx i
      cq := s.cq.post ⟨entry, result⟩ }).Perm (outstanding s) := by
  have herase := perm_eraseIdx h
  rw [List.perm_iff_count] at herase ⊢
  intro own
  have := herase own
  simp only [outstanding, CompletionQueue.post, List.map_append, List.map_cons, List.map_nil,
    List.count_append, List.count_cons, List.count_nil] at this ⊢
  omega

theorem outstanding_accepts (s : State) :
    s.accepts.accept.entry = s.accept.entry ∧ ∃ pushed,
      s.accept.count = s.accepts.accept.count + pushed ∧
      (outstanding s.accepts).Perm (List.replicate pushed s.accept.entry ++ outstanding s) := by
  rcases SubmissionQueue.pushTimes_spec s.accept.entry s.accept.count s.sq with
    ⟨pushed, hcount, hpublished, hunpublished⟩
  refine ⟨rfl, pushed, hcount, ?_⟩
  rw [List.perm_iff_count]
  intro own
  simp only [outstanding, State.accepts, AcceptCount.pushTo, SubmissionQueue.sync_published,
    SubmissionQueue.sync_unpublished, hpublished, hunpublished, List.count_append, List.count_nil]
  omega

theorem afterWrite_serves {fd bufIndex offset len writeLen : Nat} {returned : Option Nat}
    {token : Token} {op : Op}
    (h : afterWrite fd bufIndex offset len writeLen = (returned, token, op)) :
    Serves op token ∧ some bufIndex = returned.or (token.buffer) ∧
      (returned ≠ none → token.buffer = none) := by
  unfold afterWrite at h
  split at h
  · cases h
    exact ⟨.poll fd, rfl, fun _ => rfl⟩
  · cases h
    exact ⟨.write fd bufIndex _ _, rfl, fun h => absurd rfl h⟩

theorem move_step {s t : State} {event : Event} (h : Step s event t) : Move s t := by
  cases h with
  | submitted => exact .idle rfl rfl rfl rfl (outstanding_submit s)
  | busy | woke =>
    refine Move.idle rfl rfl rfl rfl ?_
    rw [outstanding_reloaded]
  | failed | cleanBusy | passEnded => exact .idle rfl rfl rfl rfl (List.Perm.refl _)
  | cleaned =>
    exact .idle (settled_accept s) (settled_tokenAlloc s) (settled_bufpool s)
      (settled_bufAlloc s) (outstanding_settled s)
  | @refilled result entry rest sq hpc hbacklog hpush =>
    refine Move.idle (settled_accept s) (settled_tokenAlloc s) (settled_bufpool s)
      (settled_bufAlloc s) ?_
    have hpopped := outstanding_popped ((settled_backlog s).trans hbacklog)
    have hpushed : (outstanding { s.settled with backlog := rest, sq := sq }).Perm
        (entry :: outstanding { s.settled with backlog := rest }) :=
      outstanding_push (s := { s.settled with backlog := rest }) hpush
    exact hpushed.trans (hpopped.symm.trans (outstanding_settled s))
  | @dropped result entry rest hpc hbacklog hpush =>
    have hpopped := outstanding_popped ((settled_backlog s).trans hbacklog)
    refine Move.dropped entry ?_ (settled_accept s) (settled_tokenAlloc s) (settled_bufpool s)
      (settled_bufAlloc s) (SubmissionQueue.push_eq_none.mp hpush) hpc ?_
    · rw [hbacklog]
      exact List.mem_cons_self ..
    · exact (outstanding_settled s).symm.trans hpopped
  | accepts =>
    rcases outstanding_accepts s with ⟨hentry, pushed, hcount, hops⟩
    exact .armed pushed hentry hcount rfl rfl rfl hops
  | @handledError key cqe rest hpc hcq hret =>
    exact .errored cqe (by rw [hcq]; exact List.mem_cons_self ..) hret rfl rfl rfl rfl
      (outstanding_walked hcq)
  | @panicked key cqe rest hpc hcq hret htoken =>
    exact .panicked cqe.entry htoken rfl rfl rfl rfl (outstanding_walked hcq)
  | @handledAccept key cqe rest hpc hcq hret htoken hkey =>
    exact .opened cqe.entry key cqe.result.toNat htoken hkey (enqueue_accept _ _)
      (enqueue_tokenAlloc _ _) (enqueue_bufpool _ _) (enqueue_bufAlloc _ _)
      (outstanding (s.walked cqe rest)) (outstanding_walked hcq) (outstanding_enqueue _ _)
  | @handledPoll key fd bufIndex cqe rest pool alloc hpc hcq hret htoken htakes =>
    refine Move.filled cqe.entry fd bufIndex htoken (enqueue_accept _ _) (enqueue_tokenAlloc _ _)
      ?_ (outstanding (s.walked cqe rest)) (outstanding_walked hcq) (outstanding_enqueue _ _)
    rw [enqueue_bufpool, enqueue_bufAlloc]
    exact htakes
  | @handledHangup key fd bufIndex cqe rest hpc hcq hret htoken =>
    exact .hungUp cqe.entry fd bufIndex htoken rfl rfl rfl rfl (outstanding_walked hcq)
  | @handledRead key fd bufIndex cqe rest hpc hcq hret htoken =>
    exact .advanced cqe.entry (.read fd bufIndex) _ _ none htoken Token.noConfusion
      (enqueue_accept _ _) (.send fd bufIndex cqe.result.toNat) rfl (fun h => absurd rfl h)
      (enqueue_tokenAlloc _ _) (enqueue_bufpool _ _) (enqueue_bufAlloc _ _)
      (outstanding (s.walked cqe rest)) (outstanding_walked hcq) (outstanding_enqueue _ _)
  | @handledWrite key fd bufIndex offset len cqe rest returned token op hpc hcq hret htoken hnext =>
    have hwrite := afterWrite_serves hnext
    exact .advanced cqe.entry (.write fd bufIndex offset len) token op returned htoken
      Token.noConfusion (enqueue_accept _ _) hwrite.1 hwrite.2.1 hwrite.2.2
      (enqueue_tokenAlloc _ _) (enqueue_bufpool _ _) (enqueue_bufAlloc _ _)
      (outstanding (s.walked cqe rest)) (outstanding_walked hcq) (outstanding_enqueue _ _)
  | completed hentry => exact .idle rfl rfl rfl rfl (outstanding_completed _ hentry)

/-- Every outstanding operation is the accept, or the one that its token waits for;
and no connection has two. -/
structure Linked (accept : Entry) (tokens : Table Token) (ops : List Entry) : Prop where
  slot : tokens.lookup accept.userData = some .accept
  only : ∀ key, tokens.lookup key = some .accept → key = accept.userData
  serves : ∀ entry ∈ ops, entry = accept ∨
    ∃ token, tokens.lookup entry.userData = some token ∧ Serves entry.op token
  single : ∀ key, key ≠ accept.userData → (ops.countP fun entry => entry.userData == key) ≤ 1

section Linked

variable {accept entry : Entry} {tokens : Table Token} {ops ops' : List Entry}

theorem serves_ne_accept {op : Op} {token : Token} (h : Serves op token) : token ≠ .accept := by
  cases h <;> exact Token.noConfusion

theorem Linked.perm (h : Linked accept tokens ops) (hperm : ops'.Perm ops) :
    Linked accept tokens ops' := by
  refine ⟨h.slot, h.only, fun own hown => h.serves own (hperm.mem_iff.mp hown), ?_⟩
  intro key hkey
  rw [hperm.countP_eq]
  exact h.single key hkey

theorem Linked.tail (h : Linked accept tokens (entry :: ops)) : Linked accept tokens ops := by
  refine ⟨h.slot, h.only, fun own hown => h.serves own (List.mem_cons_of_mem _ hown), ?_⟩
  intro key hkey
  have := h.single key hkey
  rw [List.countP_cons] at this
  omega

theorem Linked.arm (h : Linked accept tokens ops) : Linked accept tokens (accept :: ops) := by
  refine ⟨h.slot, h.only, ?_, ?_⟩
  · intro own hown
    rcases List.mem_cons.mp hown with heq | hown
    · exact Or.inl heq
    · exact h.serves own hown
  · intro key hkey
    rw [List.countP_cons, if_neg]
    · exact h.single key hkey
    · simpa using hkey.symm

theorem Linked.apart (h : Linked accept tokens (entry :: ops))
    (hkey : entry.userData ≠ accept.userData) : ∀ own ∈ ops, own.userData ≠ entry.userData := by
  intro own hown heq
  have hsingle := h.single _ hkey
  rw [List.countP_cons, if_pos (by simp)] at hsingle
  have hpos : 0 < ops.countP fun own => own.userData == entry.userData :=
    List.countP_pos_iff.mpr ⟨own, hown, by simpa using heq⟩
  omega

theorem Linked.key_ne {key : Nat} {token : Token} (h : Linked accept tokens ops)
    (htoken : tokens.lookup key = some token) (hopen : token ≠ .accept) :
    key ≠ accept.userData := by
  intro heq
  rw [heq, h.slot] at htoken
  exact hopen (Option.some.inj htoken).symm

theorem Linked.place {key : Nat} {op : Op} {token : Token} (h : Linked accept tokens ops)
    (hkey : key ≠ accept.userData) (hapart : ∀ own ∈ ops, own.userData ≠ key)
    (hserves : Serves op token) :
    Linked accept (tokens.insert key token) (⟨op, key⟩ :: ops) := by
  constructor
  case slot =>
    rw [AList.lookup_insert_ne hkey.symm]
    exact h.slot
  case only =>
    intro own hown
    by_cases heq : own = key
    · rw [heq, AList.lookup_insert] at hown
      exact absurd (Option.some.inj hown) (serves_ne_accept hserves)
    · rw [AList.lookup_insert_ne heq] at hown
      exact h.only own hown
  case serves =>
    intro own hown
    rcases List.mem_cons.mp hown with heq | hown
    · refine Or.inr ⟨token, ?_, ?_⟩
      · rw [heq]
        exact AList.lookup_insert tokens
      · rw [heq]
        exact hserves
    · rw [AList.lookup_insert_ne (hapart own hown)]
      exact h.serves own hown
  case single =>
    intro own hown
    rw [List.countP_cons]
    by_cases heq : key = own
    · have hnone : (ops.countP fun entry => entry.userData == own) = 0 := by
        rw [List.countP_eq_zero]
        intro entry hentry
        rw [beq_iff_eq, ← heq]
        exact hapart entry hentry
      rw [hnone]
      split <;> omega
    · rw [if_neg (by simpa using heq)]
      exact h.single own hown

theorem Linked.notMem {key : Nat} (h : Linked accept tokens ops) (hkey : key ∉ tokens) :
    key ≠ accept.userData ∧ ∀ own ∈ ops, own.userData ≠ key := by
  have hnone := AList.lookup_eq_none.mpr hkey
  have hslot : key ≠ accept.userData := by
    intro heq
    rw [heq, h.slot] at hnone
    cases hnone
  refine ⟨hslot, fun own hown heq => ?_⟩
  rcases h.serves own hown with haccept | ⟨token, htoken, -⟩
  · exact hslot (by rw [← heq, haccept])
  · rw [heq, hnone] at htoken
    cases htoken

theorem Linked.remove (h : Linked accept tokens (entry :: ops))
    (hkey : entry.userData ≠ accept.userData) :
    Linked accept (tokens.erase entry.userData) ops := by
  have hapart := h.apart hkey
  refine ⟨?_, ?_, ?_, h.tail.single⟩
  · rw [AList.lookup_erase_ne hkey.symm]
    exact h.slot
  · intro own hown
    by_cases heq : own = entry.userData
    · rw [heq, AList.lookup_erase] at hown
      cases hown
    · rw [AList.lookup_erase_ne heq] at hown
      exact h.only own hown
  · intro own hown
    rw [AList.lookup_erase_ne (hapart own hown)]
    exact h.tail.serves own hown

theorem Linked.arms (h : Linked accept tokens ops) (pushed : Nat) :
    Linked accept tokens (List.replicate pushed accept ++ ops) := by
  induction pushed with
  | zero => exact h
  | succ pushed ih => exact ih.arm

theorem Linked.answered (h : Linked accept tokens ops) (hperm : ops.Perm (entry :: ops')) :
    Linked accept tokens (entry :: ops') :=
  h.perm hperm.symm

theorem Linked.advance {op : Op} {token token' : Token} (h : Linked accept tokens (entry :: ops))
    (htoken : tokens.lookup entry.userData = some token) (hopen : token ≠ .accept)
    (hserves : Serves op token') :
    Linked accept (tokens.insert entry.userData token') (⟨op, entry.userData⟩ :: ops) :=
  h.tail.place (h.key_ne htoken hopen) (h.apart (h.key_ne htoken hopen)) hserves

theorem Linked.lookup_ne_none (h : Linked accept tokens (entry :: ops)) :
    tokens.lookup entry.userData ≠ none := by
  rcases h.serves entry (List.mem_cons_self ..) with heq | ⟨token, htoken, -⟩
  · rw [heq, h.slot]
    exact Option.some_ne_none _
  · rw [htoken]
    exact Option.some_ne_none _

end Linked

theorem linked_move {s t : State} (h : Linked s.accept.entry s.tokenAlloc (outstanding s))
    (hmove : Move s t) : Linked t.accept.entry t.tokenAlloc (outstanding t) := by
  cases hmove with
  | idle haccept htokens hpool halloc hops =>
    rw [haccept, htokens]
    exact h.perm hops
  | dropped entry hentry haccept htokens hpool halloc hfull hpc hops =>
    rw [haccept, htokens]
    exact (h.answered hops).tail
  | armed pushed haccept hcount htokens hpool halloc hops =>
    rw [haccept, htokens]
    exact (h.arms pushed).perm hops
  | errored cqe hcqe hret haccept htokens hpool halloc hops =>
    rw [haccept, htokens]
    exact (h.answered hops).tail
  | panicked entry htoken haccept htokens hpool halloc hops =>
    exact absurd htoken (h.answered hops).lookup_ne_none
  | opened entry key fd htoken hkey haccept htokens hpool halloc rest hops hops' =>
    have hfresh := (h.answered hops).tail.notMem hkey
    rw [haccept, htokens]
    exact ((h.answered hops).tail.place hfresh.1 hfresh.2 (.poll fd)).perm hops'
  | filled entry fd bufIndex htoken haccept htokens htakes rest hops hops' =>
    rw [haccept, htokens]
    exact ((h.answered hops).advance htoken Token.noConfusion (.recv ..)).perm hops'
  | hungUp entry fd bufIndex htoken haccept htokens hpool halloc hops =>
    rw [haccept, htokens]
    exact (h.answered hops).remove ((h.answered hops).key_ne htoken Token.noConfusion)
  | advanced entry token token' op returned htoken hopen haccept hserves hbuffer hkept htokens
      hpool halloc rest hops hops' =>
    rw [haccept, htokens]
    exact ((h.answered hops).advance htoken hopen hserves).perm hops'

theorem outstanding_init (listenFd : Nat) :
    outstanding (State.init listenFd) = List.replicate 3 ⟨.accept listenFd, 0⟩ := by
  rfl

theorem linked_init (listenFd : Nat) :
    Linked (State.init listenFd).accept.entry (State.init listenFd).tokenAlloc
      (outstanding (State.init listenFd)) := by
  rw [outstanding_init]
  have hnone : Linked (State.init listenFd).accept.entry (State.init listenFd).tokenAlloc [] := by
    refine ⟨rfl, ?_, ?_, ?_⟩
    · intro key hkey
      rcases List.mem_singleton.mp (AList.mem_keys.mp (mem_of_lookup hkey)) with rfl
      rfl
    · intro entry hentry
      cases hentry
    · intro key _
      exact Nat.zero_le 1
  exact hnone.arms 3

theorem linked_of_reachable {listenFd : Nat} {s : State}
    (h : Reachable step (State.init listenFd) s) :
    Linked s.accept.entry s.tokenAlloc (outstanding s) :=
  h.invariant (fun s => Linked s.accept.entry s.tokenAlloc (outstanding s)) (linked_init listenFd)
    fun _ _ _ _ hs hstep => linked_move hs (move_step (step_sound hstep))

theorem accept_entry_move {s t : State} (h : Move s t) : t.accept.entry = s.accept.entry := by
  cases h with
  | armed pushed haccept => exact haccept
  | idle haccept | dropped _ _ haccept | errored _ _ _ haccept | panicked _ _ haccept
  | opened _ _ _ _ _ haccept | filled _ _ _ _ haccept | hungUp _ _ _ _ haccept
  | advanced _ _ _ _ _ _ _ haccept => rw [haccept]

theorem accept_entry_of_reachable {listenFd : Nat} {s : State}
    (h : Reachable step (State.init listenFd) s) : s.accept.entry = ⟨.accept listenFd, 0⟩ := by
  refine h.invariant (fun s => s.accept.entry = ⟨.accept listenFd, 0⟩) rfl ?_
  intro s event t _ hs hstep
  rw [accept_entry_move (move_step (step_sound hstep))]
  exact hs

end IoWrapper.TokenEcho.Operations
