import IoWrapper.Core.Registry
import IoWrapper.TokenEcho.Buffers
import IoWrapper.TokenEcho.Descriptors

/-! The server gives a connection back what it has received from it, each byte at most once and
in its order: the buffer of a token is filled by one receive and sent from until the token gives
it up, and no other operation has it or the descriptor. A message is cut off only if its second
write is short. -/
namespace IoWrapper.TokenEcho.Relaying
open Core.Machine Core.Rings Core.Tables Core.Pool Core.Registry Core.Relay Server Operations
  Buffers Transfers Descriptors

/-- The descriptor of an operation with the bytes that it is still to send; an operation that
waits for new bytes has none. -/
def owedOp (bufs : Nat → List UInt8) : Op → Option (Nat × List UInt8)
  | .accept _ => none
  | .pollAdd fd | .recv fd _ _ => some (fd, [])
  | .send fd bufIndex len => some (fd, (bufs bufIndex).take len)
  | .write fd bufIndex offset len => some (fd, ((bufs bufIndex).drop offset).take len)

def owedCqe (bufs : Nat → List UInt8) (cqe : Cqe) : Option (Nat × List UInt8) :=
  match cqe.entry.op with
  | .accept _ => if 0 ≤ cqe.result then some (cqe.result.toNat, []) else none
  | .pollAdd fd => some (fd, [])
  | .recv fd bufIndex _ => some (fd, (bufs bufIndex).take cqe.result.toNat)
  | .send .. | .write .. =>
    if 0 ≤ cqe.result then
      (owedOp bufs cqe.entry.op).map fun (fd, chunk) => (fd, chunk.drop cqe.result.toNat)
    else none

structure Filed (s : Sys) : Prop where
  issued : Issued s.fds s.files
  fresh : ∀ {f}, s.files ≤ f → s.log f = []

/-- On every connection that the server works on, what it is to send is due. -/
structure Dues (due : List (Transfer UInt8) → List UInt8 → Prop) (s : Sys) : Prop where
  ops : ∀ {entry fd chunk f}, entry ∈ uncompleted s.server →
    owedOp s.bufs entry.op = some (fd, chunk) → s.fds fd = some f → due (s.log f) chunk
  cqes : ∀ {cqe fd chunk f}, cqe ∈ arrivals s.server →
    owedCqe s.bufs cqe = some (fd, chunk) → s.fds fd = some f → due (s.log f) chunk
  logs : ∀ f, ∃ chunk, due (s.log f) chunk

section Filed

variable {s : Sys}

theorem note_some {fd file : Nat} {transfers : List (Transfer UInt8)}
    (h : s.fds fd = some file) : s.note fd transfers =
      { s with log := Function.update s.log file (s.log file ++ transfers) } := by
  unfold Sys.note
  rw [h]

theorem note_none {fd : Nat} {transfers : List (Transfer UInt8)} (h : s.fds fd = none) :
    s.note fd transfers = s := by
  unfold Sys.note
  rw [h]

theorem serve_fds {u : Server.State} {fd f : Nat} (h : (s.serve u).fds fd = some f) :
    s.fds fd = some f := by
  simp only [Sys.serve] at h
  split at h
  · cases h
  · exact h

theorem Filed.serve (h : Filed s) (u : Server.State) : Filed (s.serve u) :=
  ⟨h.issued.mono serve_fds, fun hf => h.fresh hf⟩

theorem Filed.open (h : Filed s) (fd : Nat) :
    Filed { s with
      fds := Function.update s.fds fd (some s.files)
      files := s.files + 1 } := by
  refine ⟨h.issued.add fd, ?_⟩
  intro f hf
  exact h.fresh (Nat.le_of_succ_le hf)

theorem Filed.note (h : Filed s) (fd : Nat) (transfers : List (Transfer UInt8)) :
    Filed (s.note fd transfers) := by
  cases hfd : s.fds fd with
  | none =>
    rw [note_none hfd]
    exact h
  | some file =>
    rw [note_some hfd]
    refine ⟨h.issued, ?_⟩
    intro f hf
    have hne : f ≠ file := by
      rintro rfl
      exact absurd (h.issued.below fd _ hfd) (Nat.not_lt.mpr hf)
    exact (Function.update_of_ne hne _ _).trans (h.fresh hf)

theorem Filed.transfer (h : Filed s) (result : Int) (data : List UInt8) (op : Op) :
    Filed (s.transfer result data op) := by
  cases op with
  | accept fd =>
    by_cases hret : 0 ≤ result
    · simp only [Sys.transfer, if_pos hret]
      exact h.open result.toNat
    · simp only [Sys.transfer, if_neg hret]
      exact h
  | pollAdd fd => exact h
  | recv fd bufIndex len =>
    have hsame : Filed { s with
        bufs := Function.update s.bufs bufIndex (data ++ (s.bufs bufIndex).drop data.length) } :=
      ⟨h.issued, h.fresh⟩
    exact hsame.note _ _
  | send => exact h.note _ _
  | write => exact h.note _ _

end Filed

section Owed

variable {bufs bufs' : Nat → List UInt8} {op : Op} {cqe : Cqe} {fd : Nat} {chunk : List UInt8}

theorem owedOp_fd (h : owedOp bufs op = some (fd, chunk)) : op.fd = fd := by
  cases op with
  | accept => cases h
  | _ =>
    cases h
    rfl

theorem ne_accept_of_owed {own : Nat} (h : owedOp bufs op = some (fd, chunk)) :
    op ≠ .accept own := by
  rintro rfl
  cases h

theorem owedOp_congr (h : ∀ b, op.buffer = some b → bufs' b = bufs b) :
    owedOp bufs' op = owedOp bufs op := by
  cases op with
  | send fd b len => simp only [owedOp, h b rfl]
  | write fd b offset len => simp only [owedOp, h b rfl]
  | _ => rfl

theorem owedCqe_congr (h : ∀ b, cqe.entry.op.buffer = some b → bufs' b = bufs b) :
    owedCqe bufs' cqe = owedCqe bufs cqe := by
  unfold owedCqe
  rw [owedOp_congr h]
  cases hop : cqe.entry.op with
  | recv fd b len =>
    dsimp only
    rw [h b (by rw [hop]; rfl)]
  | _ => rfl

theorem accept_of_opens (h : Cqe.opens fd cqe = true) : ∃ own, cqe.entry.op = .accept own := by
  unfold Cqe.opens at h
  cases hop : cqe.entry.op with
  | accept own => exact ⟨own, rfl⟩
  | _ =>
    rw [hop] at h
    cases h

theorem buffer_of_opens (h : Cqe.opens fd cqe = true) (b : Nat) :
    cqe.entry.op.buffer ≠ some b := by
  rcases accept_of_opens h with ⟨own, hop⟩
  simp [hop, Op.buffer]

theorem owedCqe_fd (h : owedCqe bufs cqe = some (fd, chunk)) :
    Cqe.opens fd cqe = true ∧ chunk = [] ∨
      (∀ own, cqe.entry.op ≠ .accept own) ∧ cqe.entry.op.fd = fd := by
  unfold owedCqe at h
  cases hop : cqe.entry.op with
  | accept own =>
    simp only [hop, Option.ite_none_right_eq_some, Option.some.injEq, Prod.mk.injEq] at h
    rcases h with ⟨hret, rfl, rfl⟩
    refine Or.inl ⟨?_, rfl⟩
    simp only [Cqe.opens, hop, decide_eq_true_eq]
    omega
  | pollAdd | recv =>
    simp only [hop, Option.some.injEq, Prod.mk.injEq] at h
    exact Or.inr ⟨fun own => Op.noConfusion, h.1⟩
  | send | write =>
    simp only [hop, Option.ite_none_right_eq_some, owedOp, Option.map_some, Option.some.injEq,
      Prod.mk.injEq] at h
    exact Or.inr ⟨fun own => Op.noConfusion, h.2.1⟩

end Owed

section Apart

variable {listenFd i : Nat} {s : Sys} {entry own : Entry} {cqe : Cqe} {fd : Nat}

theorem exists_token (h : Reachable Transfers.step (Sys.init listenFd) s)
    (hentry : entry ∈ outstanding s.server) (hop : ∀ fd, entry.op ≠ .accept fd) :
    ∃ token, s.server.tokenAlloc.lookup entry.userData = some token ∧ Serves entry.op token := by
  have hserver := server_reachable h
  rcases (linked_of_reachable hserver).serves entry hentry with heq | htoken
  · have haccept : entry.op = .accept listenFd := by rw [heq, accept_entry_of_reachable hserver]
    exact absurd haccept (hop listenFd)
  · exact htoken

theorem open_of_claims (h : Reachable Transfers.step (Sys.init listenFd) s)
    (hpos : 0 < claims fd s.server) : s.fds fd ≠ none := by
  have hclaimed := (owned_of_reachable h).claimed fd
  by_contra hnone
  rw [if_neg (fun hopen => hopen.2 hnone)] at hclaimed
  omega

theorem on_of_serves {op : Op} {token : Token} (h : Serves op token) :
    Token.on (op.fd) token = 1 := by
  rw [Token.on, fd_of_serves h, if_pos rfl]

theorem open_of_op (h : Reachable Transfers.step (Sys.init listenFd) s)
    (hentry : entry ∈ outstanding s.server) (hop : ∀ fd, entry.op ≠ .accept fd) :
    s.fds entry.op.fd ≠ none := by
  rcases exists_token h hentry hop with ⟨token, htoken, hserves⟩
  have hweight := le_weight (Token.on entry.op.fd) htoken
  rw [on_of_serves hserves] at hweight
  exact open_of_claims h (Nat.lt_of_lt_of_le hweight (Nat.le_add_right _ _))

theorem userData_of_fd (h : Reachable Transfers.step (Sys.init listenFd) s)
    (hentry : entry ∈ outstanding s.server) (hop : ∀ fd, entry.op ≠ .accept fd)
    (hown : own ∈ outstanding s.server) (hop' : ∀ fd, own.op ≠ .accept fd)
    (hfd : own.op.fd = entry.op.fd) : own.userData = entry.userData := by
  rcases exists_token h hentry hop with ⟨token, htoken, hserves⟩
  rcases exists_token h hown hop' with ⟨token', htoken', hserves'⟩
  by_contra hne
  have hweight := add_le_weight (Token.on entry.op.fd) hne htoken htoken'
  rw [on_of_serves hserves, ← hfd, on_of_serves hserves'] at hweight
  have hclaimed := (owned_of_reachable h).claimed own.op.fd
  unfold claims at hclaimed
  split at hclaimed <;> omega

theorem fd_ne_of_opens (h : Reachable Transfers.step (Sys.init listenFd) s)
    (hentry : entry ∈ outstanding s.server) (hop : ∀ fd, entry.op ≠ .accept fd)
    (hcqe : cqe ∈ arrivals s.server) (hopens : Cqe.opens fd cqe = true) :
    fd ≠ entry.op.fd := by
  rintro rfl
  rcases exists_token h hentry hop with ⟨token, htoken, hserves⟩
  have hweight := le_weight (Token.on entry.op.fd) htoken
  rw [on_of_serves hserves] at hweight
  have hcount : 0 < (arrivals s.server).countP (Cqe.opens entry.op.fd) :=
    List.countP_pos_iff.mpr ⟨cqe, hcqe, hopens⟩
  have hclaimed := (owned_of_reachable h).claimed entry.op.fd
  unfold claims at hclaimed
  split at hclaimed <;> omega

theorem open_of_opens (h : Reachable Transfers.step (Sys.init listenFd) s)
    (hcqe : cqe ∈ arrivals s.server) (hopens : Cqe.opens fd cqe = true) : s.fds fd ≠ none := by
  have hcount : 0 < (arrivals s.server).countP (Cqe.opens fd) :=
    List.countP_pos_iff.mpr ⟨cqe, hcqe, hopens⟩
  exact open_of_claims h (Nat.lt_of_lt_of_le hcount (Nat.le_add_left _ _))

def without (s : Server.State) (i : Nat) : Server.State :=
  { s with inflight := s.inflight.eraseIdx i }

theorem outstanding_without {s : Server.State} (hentry : s.inflight[i]? = some entry) :
    (outstanding s).Perm
      (entry :: (uncompleted (without s i) ++ (arrivals s).map Cqe.entry)) := by
  have hperm := (perm_eraseIdx hentry).append_left
    (s.sq.published ++ s.sq.unpublished ++ s.backlog)
  exact (hperm.trans List.perm_middle).append_right ((arrivals s).map Cqe.entry)

theorem mem_uncompleted_of_without {s : Server.State} (h : own ∈ uncompleted (without s i)) :
    own ∈ uncompleted s := by
  rcases List.mem_append.mp h with hqueued | hinflight
  · exact List.mem_append_left _ hqueued
  · exact List.mem_append_right _ (List.mem_of_mem_eraseIdx hinflight)

theorem apart_of_without (h : Reachable Transfers.step (Sys.init listenFd) s)
    (hentry : s.server.inflight[i]? = some entry) (hop : ∀ fd, entry.op ≠ .accept fd)
    (hown : own ∈ uncompleted (without s.server i) ++ (arrivals s.server).map Cqe.entry)
    (hop' : ∀ fd, own.op ≠ .accept fd) :
    own.op.fd ≠ entry.op.fd ∧
      ∀ b, own.op.buffer = some b → entry.op.buffer ≠ some b := by
  have hserver := server_reachable h
  have hperm := outstanding_without hentry
  have hmem : entry ∈ outstanding s.server := hperm.mem_iff.mpr (List.mem_cons_self ..)
  have hmem' : own ∈ outstanding s.server := hperm.mem_iff.mpr (List.mem_cons_of_mem _ hown)
  have hlinked := (linked_of_reachable hserver).answered hperm
  rcases exists_token h hmem hop with ⟨token, htoken, hserves⟩
  have hne := hlinked.apart (hlinked.key_ne htoken (serves_ne_accept hserves)) own hown
  refine ⟨fun hfd => hne (userData_of_fd h hmem hop hmem' hop' hfd), ?_⟩
  intro b hb hb'
  have hplaced := placed_of_reachable hserver b
  have hone : weight (Token.holds b) s.server.tokenAlloc ≤ 1 := by
    unfold Placed at hplaced
    split at hplaced <;> omega
  exact hne (holds_unique hone (holds_of_op hserver hmem hb') (holds_of_op hserver hmem' hb))

end Apart

section Completions

variable {due : List (Transfer UInt8) → List UInt8 → Prop} {listenFd i : Nat} {s : Sys}
  {cqe : Cqe}

def answered (s : Server.State) (i : Nat) (cqe : Cqe) : Server.State :=
  { s with inflight := s.inflight.eraseIdx i, cq := s.cq.post cqe }

theorem mem_arrivals_answered {own : Cqe} :
    own ∈ arrivals (answered s.server i cqe) ↔ own ∈ arrivals s.server ∨ own = cqe := by
  simp only [arrivals, answered, CompletionQueue.post, List.mem_append, List.mem_singleton]
  tauto

theorem Dues.accepted {fd : Nat} (h : Dues due s) (hledger : Ledger due) (hfiled : Filed s)
    (hreach : Reachable Transfers.step (Sys.init listenFd) s)
    (hop : cqe.entry.op = .accept fd) (hret : 0 ≤ cqe.result)
    (hfree : s.fds cqe.result.toNat = none) :
    Dues due { s with
      server := answered s.server i cqe
      fds := Function.update s.fds cqe.result.toNat (some s.files)
      files := s.files + 1 } := by
  have hold : ∀ {own f : Nat}, s.fds own ≠ none →
      Function.update s.fds cqe.result.toNat (some s.files) own = some f → s.fds own = some f := by
    intro own f hopen hf
    rw [Function.update_of_ne] at hf
    · exact hf
    · rintro rfl
      exact hopen hfree
  constructor
  case ops =>
    intro entry own chunk f hentry howed hf
    have hmem := mem_uncompleted_of_without hentry
    have hopen := open_of_op hreach (List.mem_append_left _ hmem)
      fun _ => ne_accept_of_owed howed
    rw [owedOp_fd howed] at hopen
    exact h.ops hmem howed (hold hopen hf)
  case cqes =>
    intro own fd' chunk f hown howed hf
    rcases mem_arrivals_answered.mp hown with hown | rfl
    · have hopen : s.fds fd' ≠ none := by
        rcases owedCqe_fd howed with ⟨hopens, -⟩ | ⟨hop', rfl⟩
        · exact open_of_opens hreach hown hopens
        · exact open_of_op hreach (mem_outstanding_of_arrivals hown) hop'
      exact h.cqes hown howed (hold hopen hf)
    · simp only [owedCqe, hop, if_pos hret, Option.some.injEq, Prod.mk.injEq] at howed
      rcases howed with ⟨rfl, rfl⟩
      dsimp only at hf ⊢
      rw [Function.update_self] at hf
      cases hf
      rw [hfiled.fresh (Nat.le_refl _)]
      exact hledger.start
  case logs => exact h.logs

theorem Dues.noted {file : Nat} {bufs : Nat → List UInt8} {transfers : List (Transfer UInt8)}
    (h : Dues due s) (hfiled : Filed s) (hreach : Reachable Transfers.step (Sys.init listenFd) s)
    (hentry : s.server.inflight[i]? = some cqe.entry) (hop : ∀ fd, cqe.entry.op ≠ .accept fd)
    (hfile : s.fds cqe.entry.op.fd = some file)
    (hbufs : ∀ b, cqe.entry.op.buffer ≠ some b → bufs b = s.bufs b)
    (hdue : ∃ chunk, due (s.log file ++ transfers) chunk)
    (hnew : ∀ fd chunk, owedCqe bufs cqe = some (fd, chunk) →
      due (s.log file ++ transfers) chunk) :
    Dues due { s with
      server := answered s.server i cqe
      bufs := bufs
      log := Function.update s.log file (s.log file ++ transfers) } := by
  -- The operation has its file and its buffer for itself: the others owe what they owed.
  have hmem : cqe.entry ∈ outstanding s.server :=
    (outstanding_without hentry).mem_iff.mpr (List.mem_cons_self ..)
  have hkept : ∀ {fd f : Nat} {chunk : List UInt8}, fd ≠ cqe.entry.op.fd →
      s.fds fd = some f → due (s.log f) chunk →
      due (Function.update s.log file (s.log file ++ transfers) f) chunk := by
    intro fd f chunk hne hf hchunk
    rw [Function.update_of_ne]
    · exact hchunk
    · rintro rfl
      exact hne (hfiled.issued.injective _ _ _ hf hfile)
  have hsame : ∀ {own : Entry},
      own ∈ uncompleted (without s.server i) ++ (arrivals s.server).map Cqe.entry →
      (∀ fd, own.op ≠ .accept fd) → own.op.fd ≠ cqe.entry.op.fd ∧
        ∀ b, own.op.buffer = some b → bufs b = s.bufs b := by
    intro own hown hop'
    have hapart := apart_of_without hreach hentry hop hown hop'
    exact ⟨hapart.1, fun b hb => hbufs b (hapart.2 b hb)⟩
  constructor
  case ops =>
    intro own fd chunk f hown howed hf
    have hapart := hsame (List.mem_append_left _ hown) (fun _ => ne_accept_of_owed howed)
    rw [owedOp_fd howed] at hapart
    rw [owedOp_congr hapart.2] at howed
    exact hkept hapart.1 hf (h.ops (mem_uncompleted_of_without hown) howed hf)
  case cqes =>
    intro own fd chunk f hown howed hf
    rcases mem_arrivals_answered.mp hown with hown | rfl
    · rcases owedCqe_fd howed with ⟨hopens, -⟩ | ⟨hop', rfl⟩
      · have hne := fd_ne_of_opens hreach hmem hop hown hopens
        rw [owedCqe_congr fun b hb => absurd hb (buffer_of_opens hopens b)] at howed
        exact hkept hne hf (h.cqes hown howed hf)
      · have hapart := hsame (List.mem_append_right _ (List.mem_map_of_mem hown)) hop'
        rw [owedCqe_congr hapart.2] at howed
        exact hkept hapart.1 hf (h.cqes hown howed hf)
    · rcases owedCqe_fd howed with ⟨hopens, -⟩ | ⟨-, rfl⟩
      · rcases accept_of_opens hopens with ⟨own', hop'⟩
        exact absurd hop' (hop own')
      · cases hf.symm.trans hfile
        dsimp only
        rw [Function.update_self]
        exact hnew _ chunk howed
  case logs =>
    intro f
    by_cases hf : f = file
    · dsimp only
      rw [hf, Function.update_self]
      exact hdue
    · dsimp only
      rw [Function.update_of_ne hf]
      exact h.logs f

theorem Dues.answered (h : Dues due s)
    (hnew : ∀ {fd chunk f}, owedCqe s.bufs cqe = some (fd, chunk) → s.fds fd = some f →
      due (s.log f) chunk) : Dues due { s with server := answered s.server i cqe } := by
  constructor
  case ops =>
    intro own fd chunk f hown howed hf
    exact h.ops (mem_uncompleted_of_without hown) howed hf
  case cqes =>
    intro own fd chunk f hown howed hf
    rcases mem_arrivals_answered.mp hown with hown | rfl
    · exact h.cqes hown howed hf
    · exact hnew howed hf
  case logs => exact h.logs

theorem transfer_recv {fd bufIndex len file : Nat} {result : Int} {data : List UInt8}
    (hfile : s.fds fd = some file) : s.transfer result data (.recv fd bufIndex len) =
      { s with
        bufs := Function.update s.bufs bufIndex (data ++ (s.bufs bufIndex).drop data.length)
        log := Function.update s.log file
          (s.log file ++ if 0 < result then [.took data] else []) } := by
  simp only [Sys.transfer]
  exact note_some hfile

theorem transfer_send {fd bufIndex len file : Nat} {result : Int} {data : List UInt8}
    (hfile : s.fds fd = some file) (hle : result ≤ len) :
    s.transfer result data (.send fd bufIndex len) = { s with
      log := Function.update s.log file
        (s.log file ++ [.gave (((s.bufs bufIndex).take len).take result.toNat)]) } := by
  rw [List.take_take, Nat.min_eq_left (by omega)]
  exact note_some hfile

theorem transfer_write {fd bufIndex offset len file : Nat} {result : Int} {data : List UInt8}
    (hfile : s.fds fd = some file) (hle : result ≤ len) :
    s.transfer result data (.write fd bufIndex offset len) = { s with
      log := Function.update s.log file (s.log file ++
        [.gave ((((s.bufs bufIndex).drop offset).take len).take result.toNat)]) } := by
  rw [List.take_take, Nat.min_eq_left (by omega)]
  exact note_some hfile

theorem Dues.sent {fd file : Nat} {chunk : List UInt8} (h : Dues due s) (hledger : Ledger due)
    (hfiled : Filed s) (hreach : Reachable Transfers.step (Sys.init listenFd) s)
    (hentry : s.server.inflight[i]? = some cqe.entry)
    (howed : owedOp s.bufs cqe.entry.op = some (fd, chunk)) (hfile : s.fds fd = some file)
    (hcqe : owedCqe s.bufs cqe =
      if 0 ≤ cqe.result then some (fd, chunk.drop cqe.result.toNat) else none) :
    Dues due { s with
      server := Relaying.answered s.server i cqe
      log := Function.update s.log file
        (s.log file ++ [.gave (chunk.take cqe.result.toNat)]) } := by
  have hmem : cqe.entry ∈ uncompleted s.server :=
    List.mem_append_right _ (List.mem_of_getElem? hentry)
  have hdue := hledger.gave (h.ops hmem howed hfile) cqe.result.toNat
  refine h.noted hfiled hreach hentry (fun _ => ne_accept_of_owed howed) ?_ (fun b _ => rfl)
    ⟨_, hdue⟩ ?_
  · rw [owedOp_fd howed]
    exact hfile
  · intro fd' chunk' hnew
    rw [hcqe, Option.ite_none_right_eq_some, Option.some.injEq, Prod.mk.injEq] at hnew
    rw [← hnew.2.2]
    exact hdue

theorem Dues.complete {data : List UInt8} (h : Dues due s) (hledger : Ledger due)
    (hfiled : Filed s) (hreach : Reachable Transfers.step (Sys.init listenFd) s)
    (hentry : s.server.inflight[i]? = some cqe.entry)
    (hdelivers : Delivers s cqe.result data cqe.entry.op) :
    Dues due { s.transfer cqe.result data cqe.entry.op with
      server := Relaying.answered s.server i cqe } := by
  have hmem : cqe.entry ∈ uncompleted s.server :=
    List.mem_append_right _ (List.mem_of_getElem? hentry)
  have hopen := open_of_op hreach (List.mem_append_left _ hmem)
  cases hop : cqe.entry.op with
  | accept fd =>
    rw [hop] at hdelivers
    by_cases hret : 0 ≤ cqe.result
    · simp only [Sys.transfer, if_pos hret]
      exact h.accepted hledger hfiled hreach hop hret (hdelivers.2 hret)
    · simp only [Sys.transfer, if_neg hret]
      refine h.answered ?_
      intro fd' chunk f howed
      simp [owedCqe, hop, hret] at howed
  | pollAdd fd =>
    refine h.answered ?_
    intro fd' chunk f howed hf
    simp only [owedCqe, hop] at howed
    exact h.ops hmem (by rw [hop]; exact howed) hf
  | recv fd bufIndex len =>
    rw [hop] at hdelivers hopen
    rcases Option.ne_none_iff_exists'.mp (hopen fun _ => Op.noConfusion) with
      ⟨file, (hfile : s.fds fd = some file)⟩
    -- A receive is under way only when all has been sent back.
    have hnone : due (s.log file) [] := h.ops hmem (by rw [hop]; rfl) hfile
    have hdue : due (s.log file ++ if 0 < cqe.result then [.took data] else []) data := by
      by_cases hret : 0 < cqe.result
      · rw [if_pos hret]
        exact hledger.took hnone data
      · have hdata : data = [] := List.eq_nil_of_length_eq_zero (by have := hdelivers.1; omega)
        rw [if_neg hret, List.append_nil, hdata]
        exact hnone
    rw [transfer_recv hfile]
    refine h.noted hfiled hreach hentry (by simp [hop]) (by rw [hop]; exact hfile) ?_
      ⟨data, hdue⟩ ?_
    · intro b hb
      rw [hop] at hb
      exact Function.update_of_ne (fun heq => hb (congrArg some heq.symm)) _ _
    · intro fd' chunk howed
      simp only [owedCqe, hop, Option.some.injEq, Prod.mk.injEq, Function.update_self,
        ← hdelivers.1, List.take_left] at howed
      rw [← howed.2]
      exact hdue
  | send fd bufIndex len =>
    rw [hop] at hdelivers hopen
    rcases Option.ne_none_iff_exists'.mp (hopen fun _ => Op.noConfusion) with
      ⟨file, (hfile : s.fds fd = some file)⟩
    rw [transfer_send hfile hdelivers.2.1]
    exact h.sent hledger hfiled hreach hentry (by rw [hop]; rfl) hfile (by rw [owedCqe, hop]; rfl)
  | write fd bufIndex offset len =>
    rw [hop] at hdelivers hopen
    rcases Option.ne_none_iff_exists'.mp (hopen fun _ => Op.noConfusion) with
      ⟨file, (hfile : s.fds fd = some file)⟩
    rw [transfer_write hfile hdelivers.2.1]
    exact h.sent hledger hfiled hreach hentry (by rw [hop]; rfl) hfile (by rw [owedCqe, hop]; rfl)

end Completions

section Handling

variable {due : List (Transfer UInt8) → List UInt8 → Prop} {listenFd : Nat} {s : Sys}
  {u : Server.State}

/-- A write that goes on with a message has written all it was to, or has failed. -/
def Full (result : Int) : Op → Prop
  | .write _ _ _ len => 0 ≤ result → result = len
  | .accept _ | .pollAdd _ | .recv .. | .send .. => True

instance (result : Int) : (op : Op) → Decidable (Full result op)
  | .write .. => inferInstanceAs (Decidable (_ → _))
  | .accept _ | .pollAdd _ | .recv .. | .send .. => inferInstanceAs (Decidable True)

theorem owed_turn {bufs : Nat → List UInt8} {cqe : Cqe} {token token' : Token} {op : Op}
    {fd : Nat} {chunk : List UInt8} (hserves : Serves cqe.entry.op token)
    (hret : 0 ≤ cqe.result) (hturn : Turn token cqe.result token' op)
    (howed : owedOp bufs op = some (fd, chunk)) :
    ∃ whole, owedCqe bufs cqe = some (fd, whole) ∧ chunk <+: whole ∧
      (Full cqe.result cqe.entry.op → chunk = whole) := by
  unfold owedCqe
  generalize cqe.entry.op = own at hserves ⊢
  cases hturn with
  | poll =>
    cases hserves
    cases howed
    exact ⟨[], rfl, List.prefix_rfl, fun _ => rfl⟩
  | read =>
    cases hserves
    cases howed
    exact ⟨_, rfl, List.prefix_rfl, fun _ => rfl⟩
  | written hend =>
    cases howed
    cases hserves with
    | send fd bufIndex len =>
      refine ⟨_, if_pos hret, List.nil_prefix, fun _ => ?_⟩
      symm
      rw [List.drop_eq_nil_iff, List.length_take]
      omega
    | write fd bufIndex offset len =>
      refine ⟨_, if_pos hret, List.nil_prefix, fun hfull => ?_⟩
      have hall := hfull hret
      symm
      rw [List.drop_eq_nil_iff, List.length_take]
      omega
  | short hmore =>
    cases howed
    cases hserves with
    | send fd bufIndex len =>
      refine ⟨_, if_pos hret, ?_⟩
      rw [List.drop_take, Nat.zero_add]
      exact ⟨List.prefix_rfl, fun _ => rfl⟩
    | write fd bufIndex offset len =>
      refine ⟨_, if_pos hret, ?_, fun hfull => ?_⟩
      · rw [List.drop_take, List.drop_drop]
        exact List.take_prefix_take_left (by omega)
      · have hall := hfull hret
        omega

theorem Dues.moved (h : Dues due s)
    (hops : ∀ entry ∈ uncompleted u, entry ∈ uncompleted s.server ∨
      ∀ fd chunk f, owedOp s.bufs entry.op = some (fd, chunk) → s.fds fd = some f →
        due (s.log f) chunk)
    (harrivals : ∀ cqe ∈ arrivals u, cqe ∈ arrivals s.server) : Dues due (s.serve u) := by
  constructor
  case ops =>
    intro entry fd chunk f hentry howed hf
    rcases hops entry hentry with hold | hnew
    · exact h.ops hold howed (serve_fds hf)
    · exact hnew fd chunk f howed (serve_fds hf)
  case cqes =>
    intro cqe fd chunk f hcqe howed hf
    exact h.cqes (harrivals cqe hcqe) howed (serve_fds hf)
  case logs => exact h.logs

theorem Dues.serve (h : Dues due s) (hreach : Reachable Transfers.step (Sys.init listenFd) s)
    (hflow : Flow s.server u)
    (hcut : ∀ {cqe log chunk whole}, cqe ∈ arrivals s.server → due log whole →
      chunk <+: whole → (Full cqe.result cqe.entry.op → chunk = whole) → due log chunk) :
    Dues due (s.serve u) := by
  have hserver := server_reachable hreach
  have hlinked := linked_of_reachable hserver
  cases hflow with
  | idle htokens hclosed hops harrivals =>
    refine h.moved (fun entry hentry => (hops entry hentry).imp_right ?_) ?_
    · rintro rfl fd chunk f howed
      rw [accept_entry_of_reachable hserver] at howed
      cases howed
    · rw [harrivals]
      exact fun _ => id
  | errored cqe hret htokens hclosed hops harrivals
  | hungUp cqe fd bufIndex htoken htokens hclosed hops harrivals =>
    refine h.moved (fun entry hentry => Or.inl (by rw [← hops]; exact hentry)) ?_
    rw [harrivals]
    exact fun _ => List.mem_cons_of_mem cqe
  | opened cqe key hret htoken hkey htokens hclosed hops harrivals =>
    have hcqe : cqe ∈ arrivals s.server := by simp [harrivals]
    have haccept := eq_accept_of_linked hlinked (mem_outstanding_of_arrivals hcqe) htoken
    refine h.moved (fun entry hentry => (hops entry hentry).imp_right ?_) ?_
    · rintro rfl fd chunk f howed hf
      cases howed
      refine h.cqes hcqe ?_ hf
      rw [owedCqe, haccept, accept_entry_of_reachable hserver]
      exact if_pos hret
    · rw [harrivals]
      exact fun _ => List.mem_cons_of_mem cqe
  | turned cqe token token' op hret hturn htoken htokens hclosed hops harrivals =>
    have hcqe : cqe ∈ arrivals s.server := by simp [harrivals]
    have hopen : token ≠ .accept := by
      rintro rfl
      cases hturn
    have hserves := serves_of_linked hlinked (mem_outstanding_of_arrivals hcqe) htoken hopen
    refine h.moved (fun entry hentry => (hops entry hentry).imp_right ?_) ?_
    · rintro rfl fd chunk f howed hf
      rcases owed_turn hserves hret hturn howed with ⟨whole, hwhole, hfront, hfull⟩
      exact hcut hcqe (h.cqes hcqe hwhole hf) hfront hfull
    · rw [harrivals]
      exact fun _ => List.mem_cons_of_mem cqe

end Handling

section Runs

variable {listenFd : Nat} {s : Sys}

theorem filed_init (listenFd : Nat) : Filed (Sys.init listenFd) :=
  ⟨issued_none.add listenFd, fun _ => rfl⟩

theorem filed_of_reachable (h : Reachable Transfers.step (Sys.init listenFd) s) : Filed s := by
  apply h.invariant Filed (filed_init listenFd)
  intro s event t _ hs hstep
  cases Transfers.step_sound hstep with
  | served => exact hs.serve _
  | @completed i cqe data hentry hdelivers =>
    have hfiled := hs.transfer cqe.result data cqe.entry.op
    exact ⟨hfiled.issued, hfiled.fresh⟩

theorem dues_init {due : List (Transfer UInt8) → List UInt8 → Prop} (hledger : Ledger due)
    (listenFd : Nat) : Dues due (Sys.init listenFd) := by
  constructor
  case ops =>
    intro entry fd chunk f hentry howed
    have hall : entry ∈ List.replicate 3 (⟨.accept listenFd, 0⟩ : Entry) := by
      rw [← outstanding_init]
      exact List.mem_append_left _ hentry
    rw [List.eq_of_mem_replicate hall] at howed
    cases howed
  case cqes =>
    intro cqe fd chunk f hcqe
    exact absurd hcqe List.not_mem_nil
  case logs => exact fun _ => ⟨[], hledger.start⟩

theorem dues_step {due : List (Transfer UInt8) → List UInt8 → Prop} {event : Transfers.Event}
    {t : Sys} (h : Dues due s) (hledger : Ledger due)
    (hreach : Reachable Transfers.step (Sys.init listenFd) s)
    (hcut : ∀ {cqe log chunk whole}, cqe ∈ arrivals s.server → due log whole →
      chunk <+: whole → (Full cqe.result cqe.entry.op → chunk = whole) → due log chunk)
    (hstep : Transfers.step s event = some t) : Dues due t := by
  cases Transfers.step_sound hstep with
  | served hown hnext =>
    exact h.serve hreach (flow_of_reachable (server_reachable hreach) hown hnext) hcut
  | completed hentry hdelivers =>
    exact h.complete hledger (filed_of_reachable hreach) hreach hentry hdelivers

/-- Whatever the kernel does, what the server has sent on a connection is made of the messages
that it has received there, one after the other and each cut off at some place: a connection is
sent back only its own bytes, in their order and each at most once. -/
theorem feeds_back (h : Reachable Transfers.step (Sys.init listenFd) s) (f : Nat) :
    (∃ held, Feeds (s.log f) held) ∧ (given (s.log f)).Sublist (taken (s.log f)) := by
  have hdues : Dues (fun log chunk => ∃ held, Feeds log held ∧ chunk <+: held) s := by
    apply h.invariant (Dues _) (dues_init ledger_feeds listenFd)
    intro s event t hreach hs hstep
    refine dues_step hs ledger_feeds hreach ?_ hstep
    rintro cqe log chunk whole - ⟨held, hfeeds, hwhole⟩ hfront -
    exact ⟨held, hfeeds, hfront.trans hwhole⟩
  rcases hdues.logs f with ⟨chunk, held, hfeeds, -⟩
  exact ⟨⟨held, hfeeds⟩, (List.sublist_append_left _ held).trans hfeeds.sublist⟩

theorem mem_arrivals_of_flow {s u : Server.State} (h : Flow s u) :
    ∀ cqe ∈ arrivals u, cqe ∈ arrivals s := by
  cases h with
  | idle htokens hclosed hops harrivals =>
    rw [harrivals]
    exact fun _ => id
  | errored _ _ _ _ _ harrivals | opened _ _ _ _ _ _ _ _ harrivals
  | turned _ _ _ _ _ _ _ _ _ _ harrivals | hungUp _ _ _ _ _ _ _ harrivals =>
    rw [harrivals]
    exact fun _ => List.mem_cons_of_mem _

/-- A write that goes on with a message is whole, or fails. -/
def Willing (s : Sys) : Transfers.Event → Prop
  | .complete i result _ => ∀ entry ∈ s.server.inflight[i]?, Full result entry.op
  | .server _ => True

instance (s : Sys) : (event : Transfers.Event) → Decidable (Willing s event)
  | .complete i _ _ => inferInstanceAs (Decidable (∀ entry ∈ s.server.inflight[i]?, _))
  | .server _ => inferInstanceAs (Decidable True)

theorem full_of_reachable
    (h : Reachable (restrict Willing Transfers.step) (Sys.init listenFd) s) :
    ∀ cqe ∈ arrivals s.server, Full cqe.result cqe.entry.op := by
  apply h.invariant fun s => ∀ cqe ∈ arrivals s.server, Full cqe.result cqe.entry.op
  · exact fun cqe hcqe => absurd hcqe List.not_mem_nil
  · intro s event t hreach hs hstep
    rcases restrict_eq_some.mp hstep with ⟨hwilling, hnext⟩
    have hserver := server_reachable hreach.of_restrict
    cases Transfers.step_sound hnext with
    | served hown hmove =>
      have hflow := flow_of_reachable hserver hown hmove
      exact fun cqe hcqe => hs cqe (mem_arrivals_of_flow hflow cqe hcqe)
    | completed hentry =>
      intro cqe hcqe
      rcases mem_arrivals_answered.mp hcqe with hold | rfl
      · exact hs cqe hold
      · exact hwilling _ hentry

theorem owedOp_of_waitsFor {bufs : Nat → List UInt8} {op : Op} {fd : Nat}
    (h : op.waitsFor = some fd) : owedOp bufs op = some (fd, []) := by
  cases op with
  | pollAdd | recv =>
    cases h
    rfl
  | accept | send | write => cases h

/-- If the second write of every message is whole, then no byte is left out: what a connection has
been sent back is always the front of what it has sent, and all of it when the server waits for
more. -/
theorem feeds_back_all (h : Reachable (restrict Willing Transfers.step) (Sys.init listenFd) s) :
    (∀ f, given (s.log f) <+: taken (s.log f)) ∧
      ∀ entry ∈ uncompleted s.server, ∀ fd ∈ entry.op.waitsFor,
        ∃ f, s.fds fd = some f ∧ given (s.log f) = taken (s.log f) := by
  have hdues : Dues (fun log chunk => given log ++ chunk = taken log) s := by
    apply h.invariant (Dues _) (dues_init ledger_totals listenFd)
    intro s event t hreach hs hstep
    refine dues_step hs ledger_totals hreach.of_restrict ?_ (restrict_eq_some.mp hstep).2
    intro cqe log chunk whole hcqe hwhole _ hfull
    rw [hfull (full_of_reachable hreach cqe hcqe)]
    exact hwhole
  constructor
  · intro f
    rcases hdues.logs f with ⟨chunk, hall⟩
    exact ⟨chunk, hall⟩
  · intro entry hentry fd hfd
    have howed : owedOp s.bufs entry.op = some (fd, []) := owedOp_of_waitsFor hfd
    have hopen := open_of_op h.of_restrict (List.mem_append_left _ hentry)
      fun _ => ne_accept_of_owed howed
    rw [owedOp_fd howed] at hopen
    rcases Option.ne_none_iff_exists'.mp hopen with ⟨f, hf⟩
    have hall := hdues.ops hentry howed hf
    rw [List.append_nil] at hall
    exact ⟨f, hf, hall⟩

end Runs

theorem feeds_back_cut : ∃ s, Reachable Transfers.step (Sys.init 3) s ∧
    s.log 1 = [.took [7, 8, 9], .gave [7], .gave [8]] ∧
    s.server.tokenAlloc.lookup 1 = some (.poll 5) ∧ (∃ held, Feeds (s.log 1) held) ∧
    (given (s.log 1)).Sublist (taken (s.log 1)) := by
  have hview : (run Transfers.step (Sys.init 3)
      (oneMessage ++ served 3 1 [] 0 ++ served 3 1 [] 0)).map
      (fun s => (s.log 1, s.server.tokenAlloc.lookup 1)) =
      some ([.took [7, 8, 9], .gave [7], .gave [8]], some (.poll 5)) := by decide +kernel
  rcases Reachable.of_view hview with ⟨s, hreach, hseen⟩
  rw [Prod.mk.injEq] at hseen
  exact ⟨s, hreach, hseen.1, hseen.2, feeds_back hreach 1⟩

theorem feeds_back_all_two_writes : ∃ s entry,
    Reachable (restrict Willing Transfers.step) (Sys.init 3) s ∧
    s.log 1 = [.took [7, 8, 9], .gave [7], .gave [8, 9]] ∧ entry ∈ uncompleted s.server ∧
    entry.op = .pollAdd 5 ∧ ∃ f, s.fds 5 = some f ∧ given (s.log f) = taken (s.log f) := by
  have hview : (run (restrict Willing Transfers.step) (Sys.init 3)
      (oneMessage ++ served 3 1 [] 0 ++ served 3 2 [] 0)).map
      (fun s => (s.log 1, s.server.inflight[3]?)) =
      some ([.took [7, 8, 9], .gave [7], .gave [8, 9]], some ⟨.pollAdd 5, 1⟩) := by
    decide +kernel
  rcases Reachable.of_view hview with ⟨s, hreach, hseen⟩
  rw [Prod.mk.injEq] at hseen
  have hentry : ⟨.pollAdd 5, 1⟩ ∈ uncompleted s.server :=
    List.mem_append_right _ (List.mem_of_getElem? hseen.2)
  exact ⟨s, _, hreach, hseen.1, hentry, rfl, (feeds_back_all hreach).2 _ hentry 5 rfl⟩

end IoWrapper.TokenEcho.Relaying
