import IoWrapper.Echo.Buffers
import IoWrapper.Echo.Pending

/-! Echo fidelity. What a connection has been sent and what the operation
pending on it is still to send make up what it has sent to the server, as long
as every send completes in full and no buffer is doubled. -/
namespace IoWrapper.Echo.Fidelity
open Core.Machine Core.Pool Server Accounting Buffers Pending

def SentWhole (op : Op) (res : Int) : Prop :=
  match op with
  | .send _ _ len => res = len
  | .accept _ | .recv _ _ | .provideBuffers _ _ _ => True

instance (res : Int) : (op : Op) → Decidable (SentWhole op res)
  | .send _ _ len => inferInstanceAs (Decidable (res = len))
  | .accept _ | .recv _ _ | .provideBuffers _ _ _ => inferInstanceAs (Decidable True)

/-- Every send completes with all its bytes sent. -/
def Whole (s : State) : Event → Prop
  | .complete i res _ => ∀ f ∈ s.inflight[i]?, SentWhole f.sqe.op res
  | _ => True

instance (s : State) : (event : Event) → Decidable (Whole s event)
  | .complete i _ _ => inferInstanceAs (Decidable (∀ f ∈ s.inflight[i]?, _))
  | .submit _ | .handle | .endPass | .issue | .provide _ | .take .. | .giveBack _ =>
    inferInstanceAs (Decidable True)

def Faithful (s : State) (event : Event) : Prop := Carries s event ∧ Whole s event

instance (s : State) (event : Event) : Decidable (Faithful s event) :=
  inferInstanceAs (Decidable (_ ∧ _))

/-- The descriptor of an operation, with the bytes that it is still to send. -/
def owedOp (bufs : Nat → List UInt8) : Op → Option (Nat × List UInt8)
  | .recv fd _ => some (fd, [])
  | .send fd bid len => some (fd, (bufs bid).take len)
  | .accept _ | .provideBuffers _ _ _ => none

def owedCqe (bufs : Nat → List UInt8) (cqe : Cqe) : Option (Nat × List UInt8) :=
  match cqe.sqe.op with
  | .recv fd _ => some (fd, (bufs (cqe.flags >>> 16)).take cqe.res.toNat)
  | .send fd _ _ => some (fd, [])
  | .accept _ => if 0 ≤ cqe.res then some (cqe.res.toNat, []) else none
  | .provideBuffers _ _ _ => none

inductive Owes (bufs : Nat → List UInt8) (queue : List Sqe) (inflight : List Issued)
    (cq : List Cqe) (fd : Nat) (data : List UInt8) : Prop where
  | queued {sqe : Sqe} (hmem : sqe ∈ queue) (howed : owedOp bufs sqe.op = some (fd, data))
  | issued {f : Issued} (hmem : f ∈ inflight) (howed : owedOp bufs f.sqe.op = some (fd, data))
  | completed {cqe : Cqe} (hmem : cqe ∈ cq) (howed : owedCqe bufs cqe = some (fd, data))

def StateOwes (s : State) : Nat → List UInt8 → Prop :=
  Owes s.bufs (queue s) s.inflight s.cq

def Echoed (s : State) : Prop :=
  ∀ fd data, StateOwes s fd data → ∀ c ∈ s.conns, c.fd = fd → c.received = c.sent ++ data

theorem Echoed.of_owes {s t : State} (hs : Echoed s)
    (howes : ∀ fd data, StateOwes t fd data → StateOwes s fd data)
    (hconns : ∀ c ∈ t.conns, c ∈ s.conns) : Echoed t :=
  fun fd data h c hc hfd => hs fd data (howes fd data h) c (hconns c hc) hfd

theorem Owes.weight {bufs : Nat → List UInt8} {queue : List Sqe} {inflight : List Issued}
    {cq : List Cqe} {fd : Nat} {data : List UInt8} (h : Owes bufs queue inflight cq fd data) :
    1 ≤ total (fun sqe => onFd (· == fd) sqe.op) queue +
      total (fun f => onFd (· == fd) f.sqe.op) inflight +
      total (fun cqe => onFd (· == fd) cqe.sqe.op + returned (· == fd) cqe) cq := by
  have hop : ∀ {op : Op}, owedOp bufs op = some (fd, data) → onFd (· == fd) op = 1 := by
    intro op howed
    cases op with
    | recv own len =>
      cases howed
      simp [onFd, indicator]
    | send own bid len =>
      cases howed
      simp [onFd, indicator]
    | accept own => cases howed
    | provideBuffers bid len nr => cases howed
  cases h with
  | queued hmem howed =>
    have hle := le_total_of_mem (fun sqe : Sqe => onFd (· == fd) sqe.op) hmem
    simp only [hop howed] at hle
    omega
  | issued hmem howed =>
    have hle := le_total_of_mem (fun f : Issued => onFd (· == fd) f.sqe.op) hmem
    simp only [hop howed] at hle
    omega
  | @completed cqe hmem howed =>
    have hle := le_total_of_mem
      (fun cqe : Cqe => onFd (· == fd) cqe.sqe.op + returned (· == fd) cqe) hmem
    have hone : onFd (· == fd) cqe.sqe.op + returned (· == fd) cqe = 1 := by
      unfold owedCqe at howed
      cases hown : cqe.sqe.op with
      | recv own len =>
        rw [hown] at howed
        cases howed
        simp [onFd, returned, hown, indicator]
      | send own bid len =>
        rw [hown] at howed
        cases howed
        simp [onFd, returned, hown, indicator]
      | accept own =>
        simp only [hown, Option.ite_none_right_eq_some, Option.some.injEq, Prod.mk.injEq] at howed
        simp [onFd, returned, hown, howed.1, howed.2.1, indicator]
      | provideBuffers bid len nr =>
        rw [hown] at howed
        cases howed
    simp only [hone] at hle
    omega

theorem rest_apart {s : State} {i fd fd' : Nat} {f : Issued} {bufs : Nat → List UInt8}
    {data : List UInt8} (hs : Wired s) (hf : s.inflight[i]? = some f)
    (hon : onFd (· == fd) f.sqe.op = 1)
    (h : Owes bufs (queue s) (s.inflight.eraseIdx i) s.cq fd' data) : fd' ≠ fd := by
  intro heq
  subst heq
  have hties := hs.ties (· == fd')
  rw [total_indicator] at hties
  have hone := List.nodup_iff_count_le_one.mp hs.distinct fd'
  have hweight := h.weight
  unfold opWeigh weigh at hties
  rw [total_eraseIdx (fun f : Issued => onFd (· == fd') f.sqe.op) hf, hon] at hties
  omega

theorem owedOp_update {bufs : Nat → List UInt8} {bid : Nat} (value : List UInt8) {op : Op}
    (h : ∀ fd len, op ≠ .send fd bid len) :
    owedOp (Function.update bufs bid value) op = owedOp bufs op := by
  cases op with
  | send fd own len =>
    have hne : own ≠ bid := fun heq => h fd len (by rw [heq])
    simp only [owedOp, Function.update_of_ne hne]
  | _ => rfl

theorem Owes.of_update {bufs : Nat → List UInt8} {queue : List Sqe} {inflight : List Issued}
    {cq : List Cqe} {fd bid : Nat} {value data : List UInt8}
    (h : Owes (Function.update bufs bid value) queue inflight cq fd data)
    (hflagged : ∀ cqe ∈ cq, cqe.userData.type = .read → cqe.res ≠ -enobufs →
      cqe.flags % 2 = 1)
    (hqueue : total (queuedUse bid) queue = 0) (hinflight : total (issuedUse bid) inflight = 0)
    (hcq : total (completedUse bid) cq = 0) : Owes bufs queue inflight cq fd data := by
  cases h with
  | @queued sqe hmem howed =>
    refine .queued hmem ?_
    rw [← howed, owedOp_update]
    intro own len hop
    have hzero := (total_eq_zero_iff _ _).mp hqueue sqe hmem
    simp [queuedUse, hop] at hzero
  | @issued f hmem howed =>
    refine .issued hmem ?_
    rw [← howed, owedOp_update]
    intro own len hop
    have hzero := (total_eq_zero_iff _ _).mp hinflight f hmem
    simp [issuedUse, hop] at hzero
  | @completed cqe hmem howed =>
    refine .completed hmem ?_
    rw [← howed]
    unfold owedCqe
    cases hop : cqe.sqe.op with
    | recv own len =>
      by_cases hres : 0 < cqe.res
      · have hodd := hflagged cqe hmem (by rw [Cqe.userData, userData_of_op hop]; rfl)
          (by simp only [enobufs]; omega)
        have hzero := (total_eq_zero_iff _ _).mp hcq cqe hmem
        have hne : cqe.flags >>> 16 ≠ bid := by
          intro heq
          simp [completedUse, hop, hodd, heq] at hzero
        simp only [Function.update_of_ne hne]
      · have hnone : cqe.res.toNat = 0 := by omega
        simp only [hnone, List.take_zero]
    | _ => rfl

theorem Owes.of_eraseIdx {bufs : Nat → List UInt8} {queue : List Sqe} {inflight : List Issued}
    {cq : List Cqe} {i fd : Nat} {data : List UInt8}
    (h : Owes bufs queue (inflight.eraseIdx i) cq fd data) :
    Owes bufs queue inflight cq fd data := by
  cases h with
  | queued hmem howed => exact .queued hmem howed
  | issued hmem howed => exact .issued (List.mem_of_mem_eraseIdx hmem) howed
  | completed hmem howed => exact .completed hmem howed

theorem mem_onConn {fd : Nat} {update : Conn → Conn} {conns : List Conn} {c : Conn}
    (h : c ∈ onConn fd update conns) :
    ∃ own ∈ conns, (own.fd = fd ∧ c = update own) ∨ (own.fd ≠ fd ∧ c = own) := by
  rcases List.mem_map.mp h with ⟨own, hown, heq⟩
  refine ⟨own, hown, ?_⟩
  by_cases hfd : own.fd = fd
  · rw [if_pos hfd] at heq
    exact Or.inl ⟨hfd, heq.symm⟩
  · rw [if_neg hfd] at heq
    exact Or.inr ⟨hfd, heq.symm⟩

theorem stateOwes_post {u : State} {i fd : Nat} {cqe : Cqe} {data : List UInt8}
    (h : StateOwes (u.post i cqe) fd data) :
    owedCqe u.bufs cqe = some (fd, data) ∨
      Owes u.bufs (queue u) (u.inflight.eraseIdx i) u.cq fd data := by
  cases h with
  | queued hmem howed => exact Or.inr (.queued hmem howed)
  | issued hmem howed => exact Or.inr (.issued hmem howed)
  | completed hmem howed =>
    rcases List.mem_append.mp hmem with hmem | hmem
    · exact Or.inr (.completed hmem howed)
    · rw [List.mem_singleton.mp hmem] at howed
      exact Or.inl howed

theorem Echoed.received {s : State} {i fd len bid : Nat} {sqe : Sqe} {res : Int}
    {data : List UInt8} (hs : Echoed s) (hwired : Wired s) (hflagged : Flagged s)
    (hplaces : places s bid ≤ 1) (hf : s.inflight[i]? = some ⟨sqe, some bid⟩)
    (hop : sqe.op = .recv fd len) (hdata : data.length = res.toNat) :
    Echoed ((s.receive fd bid data).post i ⟨sqe, res, bufferFlags bid⟩) := by
  intro fd' owed howes c hc hfd
  have hon : onFd (· == fd) sqe.op = 1 := by simp [onFd, hop, indicator]
  rcases mem_onConn hc with ⟨own, hown, hcase⟩
  rcases stateOwes_post howes with hnew | hrest
  · have hpair : fd' = fd ∧ owed = data := by
      simp only [owedCqe, hop, State.receive, bufferFlags_bid, Function.update_self,
        Option.some.injEq, Prod.mk.injEq] at hnew
      refine ⟨hnew.1.symm, ?_⟩
      rw [← hnew.2, ← hdata, List.take_left]
    rw [hpair.1] at hfd
    rw [hpair.2]
    rcases hcase with ⟨hsame, hupd⟩ | ⟨hother, hkept⟩
    · have hbefore := hs fd [] (.issued (List.mem_of_getElem? hf) (by simp [owedOp, hop]))
        own hown hsame
      rw [hupd]
      simp only [Conn.receive, hbefore, List.append_nil]
    · rw [hkept] at hfd
      exact absurd hfd hother
  · have hne := rest_apart hwired hf hon hrest
    have huse : issuedUse bid ⟨sqe, some bid⟩ = 1 := by simp [issuedUse, hop]
    have hbefore : Owes s.bufs (queue s) s.inflight s.cq fd' owed := by
      unfold places weigh at hplaces
      rw [total_eraseIdx (issuedUse bid) hf, huse] at hplaces
      have hqueue : total (queuedUse bid) (queue s) = 0 := by omega
      have hinflight : total (issuedUse bid) (s.inflight.eraseIdx i) = 0 := by omega
      have hcq : total (completedUse bid) s.cq = 0 := by omega
      exact (Owes.of_update hrest hflagged hqueue hinflight hcq).of_eraseIdx
    rcases hcase with ⟨hsame, hupd⟩ | ⟨hother, hkept⟩
    · rw [hupd] at hfd
      exact absurd (hfd.symm.trans hsame) hne
    · rw [hkept] at hfd ⊢
      exact hs fd' owed hbefore own hown hfd

theorem Echoed.sent {s : State} {i fd bid len : Nat} {f : Issued} {res : Int} (hs : Echoed s)
    (hwired : Wired s) (hf : s.inflight[i]? = some f) (hop : f.sqe.op = .send fd bid len)
    (hwhole : res = len) :
    Echoed ((s.transmit fd bid res.toNat).post i ⟨f.sqe, res, 0⟩) := by
  intro fd' owed howes c hc hfd
  have hon : onFd (· == fd) f.sqe.op = 1 := by simp [onFd, hop, indicator]
  rcases mem_onConn hc with ⟨own, hown, hcase⟩
  rcases stateOwes_post howes with hnew | hrest
  · simp only [owedCqe, hop, Option.some.injEq, Prod.mk.injEq] at hnew
    rw [← hnew.1] at hfd
    rw [← hnew.2]
    rcases hcase with ⟨hsame, hupd⟩ | ⟨hother, hkept⟩
    · have hbefore := hs fd ((s.bufs bid).take len)
        (.issued (List.mem_of_getElem? hf) (by simp [owedOp, hop])) own hown hsame
      rw [hupd]
      simp only [Conn.transmit, hbefore, hwhole, Int.toNat_natCast, List.append_nil]
    · rw [hkept] at hfd
      exact absurd hfd hother
  · have hne := rest_apart hwired hf hon hrest
    rcases hcase with ⟨hsame, hupd⟩ | ⟨hother, hkept⟩
    · rw [hupd] at hfd
      exact absurd (hfd.symm.trans hsame) hne
    · rw [hkept] at hfd ⊢
      exact hs fd' owed (Owes.of_eraseIdx hrest) own hown hfd

theorem Echoed.accepted {s : State} {i fd : Nat} {f : Issued} {res : Int} (hs : Echoed s)
    (hwired : Wired s) (hop : f.sqe.op = .accept fd) (hres : 0 ≤ res)
    (hfresh : res.toNat ∉ s.conns.map Conn.fd) :
    Echoed ((s.accept res.toNat).post i ⟨f.sqe, res, 0⟩) := by
  intro fd' owed howes c hc hfd
  simp only [State.post, State.accept, List.mem_append, List.mem_singleton] at hc
  rcases stateOwes_post howes with hnew | hrest
  · simp only [owedCqe, hop, hres, if_true, Option.some.injEq, Prod.mk.injEq] at hnew
    rw [← hnew.2]
    rcases hc with hc | hc
    · rw [← hnew.1] at hfd
      exact absurd (hfd ▸ List.mem_map_of_mem hc) hfresh
    · rw [hc]
      rfl
  · have hbefore : StateOwes s fd' owed := Owes.of_eraseIdx hrest
    rcases hc with hc | hc
    · exact hs fd' owed hbefore c hc hfd
    -- A descriptor that something is owed on was open before the accept.
    · have hopen : fd' ∈ s.conns.map Conn.fd := hwired.mem_fds hbefore.weight
      rw [← hfd, hc] at hopen
      exact absurd hopen hfresh

theorem Echoed.answered {s : State} {cqe : Cqe} {rest : List Cqe} (hs : Echoed s)
    (hcq : s.cq = cqe :: rest) (more : List Sqe)
    (hmore : ∀ sqe ∈ more, owedOp s.bufs sqe.op = none ∨
      owedOp s.bufs sqe.op = owedCqe s.bufs cqe) : Echoed (s.answered rest more) := by
  refine hs.of_owes (fun fd data howes => ?_) fun c hc => hc
  cases howes with
  | @queued sqe hmem howed =>
    rw [queue_answered] at hmem
    rcases List.mem_append.mp hmem with hmem | hmem
    · exact .queued hmem howed
    · refine .completed (by rw [hcq]; exact List.mem_cons_self ..) ?_
      rcases hmore sqe hmem with hnone | hsame
      · rw [show owedOp s.bufs sqe.op = some (fd, data) from howed] at hnone
        cases hnone
      · rw [← hsame]
        exact howed
  | issued hmem howed => exact .issued hmem howed
  | completed hmem howed =>
    refine .completed ?_ howed
    rw [hcq]
    exact List.mem_cons_of_mem _ hmem

theorem Echoed.close {s : State} (hs : Echoed s) (fd : Nat) : Echoed (s.close fd) := by
  unfold State.close
  split
  · exact hs.of_owes (fun _ _ h => h) fun c hc => List.mem_of_mem_eraseIdx hc
  · exact hs

theorem Echoed.issued {s : State} {sqe : Sqe} {rest : List Sqe} (hs : Echoed s)
    (hsub : s.submitted = sqe :: rest) :
    Echoed { s with
      submitted := rest
      inflight := s.inflight ++ [⟨sqe, none⟩] } := by
  refine hs.of_owes (fun fd data howes => ?_) fun c hc => hc
  have hqueue : queue s = sqe :: (rest ++ s.sq) := by rw [queue, hsub, List.cons_append]
  cases howes with
  | queued hmem howed =>
    refine .queued ?_ howed
    rw [hqueue]
    exact List.mem_cons_of_mem _ hmem
  | issued hmem howed =>
    rcases List.mem_append.mp hmem with hmem | hmem
    · exact .issued hmem howed
    · rw [List.mem_singleton.mp hmem] at howed
      refine .queued ?_ howed
      rw [hqueue]
      exact List.mem_cons_self ..
  | completed hmem howed => exact .completed hmem howed

theorem Echoed.provided {s : State} {sqe : Sqe} {rest : List Sqe} {bid len nr : Nat}
    (hs : Echoed s) (group : List Nat) (res : Int) (hsub : s.submitted = sqe :: rest)
    (hop : sqe.op = .provideBuffers bid len nr) :
    Echoed { s with
      submitted := rest
      group := group
      cq := s.cq ++ [⟨sqe, res, 0⟩] } := by
  refine hs.of_owes (fun fd data howes => ?_) fun c hc => hc
  cases howes with
  | queued hmem howed =>
    refine .queued ?_ howed
    rw [queue, hsub, List.cons_append]
    exact List.mem_cons_of_mem _ hmem
  | issued hmem howed => exact .issued hmem howed
  | completed hmem howed =>
    rcases List.mem_append.mp hmem with hmem | hmem
    · exact .completed hmem howed
    · rw [List.mem_singleton.mp hmem] at howed
      simp [owedCqe, hop] at howed

theorem Echoed.lent {s : State} {i : Nat} {sqe : Sqe} {held : Option Nat} (hs : Echoed s)
    (group : List Nat) (held' : Option Nat) (hf : s.inflight[i]? = some ⟨sqe, held⟩) :
    Echoed { s with
      group := group
      inflight := s.inflight.set i ⟨sqe, held'⟩ } := by
  refine hs.of_owes (fun fd data howes => ?_) fun c hc => hc
  cases howes with
  | queued hmem howed => exact .queued hmem howed
  | issued hmem howed =>
    rcases List.mem_or_eq_of_mem_set hmem with hmem | hmem
    · exact .issued hmem howed
    · rw [hmem] at howed
      exact .issued (List.mem_of_getElem? hf) howed
  | completed hmem howed => exact .completed hmem howed

theorem Echoed.posted {s : State} {i : Nat} {f : Issued} {cqe : Cqe} (hs : Echoed s)
    (hf : s.inflight[i]? = some f)
    (howed : owedCqe s.bufs cqe = none ∨ owedCqe s.bufs cqe = owedOp s.bufs f.sqe.op) :
    Echoed (s.post i cqe) := by
  refine hs.of_owes (fun fd data howes => ?_) fun c hc => hc
  rcases stateOwes_post howes with hnew | hrest
  · rcases howed with hnone | hsame
    · rw [hnone] at hnew
      cases hnew
    · rw [hsame] at hnew
      exact .issued (List.mem_of_getElem? hf) hnew
  · exact hrest.of_eraseIdx

theorem Echoed.step {s t : State} {event : Event} (hs : Echoed s) (hwired : Wired s)
    (hflagged : Flagged s) (hplaces : ∀ b, places s b ≤ 1) (hwhole : Whole s event)
    (h : Step s event t) : Echoed t := by
  cases h with
  | submitted =>
    refine hs.of_owes (fun fd data howes => ?_) fun c hc => hc
    unfold StateOwes at howes
    rw [queue_submitted] at howes
    exact howes
  | passEnded | exited => exact hs
  | handledProvide hpc hcq hop => exact hs.answered hcq [] (by simp)
  | handledAccept hpc hcq hop hres =>
    refine hs.answered hcq _ ?_
    simp [owedOp, owedCqe, hop, hres]
  | handledAcceptError hpc hcq hop hres =>
    refine hs.answered hcq _ ?_
    simp [owedOp]
  | handledHangup hpc hcq hop hres hbufs =>
    apply Echoed.close
    refine hs.answered hcq _ ?_
    simp [owedOp]
  | handledRead hpc hcq hop hres =>
    refine hs.answered hcq _ ?_
    simp [owedOp, owedCqe, hop]
  | handledWrite hpc hcq hop =>
    refine hs.answered hcq _ ?_
    simp [owedOp, owedCqe, hop]
  | issued hsub => exact hs.issued hsub
  | provided hsub hop => exact hs.provided _ _ hsub hop
  | took hf => exact hs.lent _ _ hf
  | gaveBack hf => exact hs.lent _ _ hf
  | accepted hf hop hres hfresh => exact hs.accepted hwired hop hres hfresh
  | acceptFailed hf hop hres =>
    refine hs.posted hf (Or.inl ?_)
    simp [owedCqe, hop, Int.not_le.mpr hres]
  | received hf hop hbufs hdata hlen =>
    exact hs.received hwired hflagged (hplaces _) hf hop hdata
  | recvFailed hf hop hres hbufs =>
    refine hs.posted hf (Or.inr ?_)
    simp [owedCqe, owedOp, hop, Int.toNat_of_nonpos hres]
  | @sent i fd bid len f res hf hop hres hle =>
    have hall := hwhole f hf
    rw [hop] at hall
    exact hs.sent hwired hf hop hall

theorem echoed_of_reachable {listenFd : Nat} {s : State}
    (h : Reachable (restrict Faithful step) (State.init listenFd) s) : Echoed s := by
  refine h.invariant Echoed (fun fd data _ c hc => by cases hc) fun s event t hreach hs hstep => ?_
  have hboth := restrict_eq_some.mp hstep
  have hcarries := hreach.restrict_mono (fun _ _ h => h.1)
  exact hs.step (wired_of_reachable hreach.of_restrict) (flagged_of_reachable hcarries)
    (places_le_one hcarries) hboth.1.2 (step_sound hboth.2)

/-- In every run in which every send completes in full and each receive that
completes without data reports a buffer: when the server answers the completion
of a send with a receive, the bytes sent to the connection are the bytes
received from it. -/
theorem echo_exact {listenFd : Nat} {s t : State} {cqe : Cqe} {rest : List Cqe} {fd : Nat}
    (h : Reachable (restrict Faithful step) (State.init listenFd) s)
    (hstep : step s .handle = some t) (hcq : s.cq = cqe :: rest)
    (hwrite : cqe.userData.type = .write)
    (hread : addSocketRead fd groupId maxMessageLen iosqeBufferSelect ∈
      (handleCqe s.listenFd cqe).queued) :
    (∃ c ∈ t.conns, c.fd = fd) ∧ ∀ c ∈ t.conns, c.fd = fd → c.sent = c.received := by
  rcases op_of_type_write hwrite with ⟨own, bid, len, hop⟩
  have hfd : fd = own := by
    by_cases hbufs : cqe.res = -enobufs
    · simp [handleCqe, hbufs] at hread
    · simp only [handleCqe, hbufs, Cqe.userData, userData_of_op hop, Op.connInfo, if_false,
        List.mem_cons, List.not_mem_nil, or_false] at hread
      rcases hread with heq | heq
      · cases congrArg Sqe.op heq
      · cases congrArg Sqe.op heq
        rfl
  have hconns : t.conns = s.conns := by
    cases step_sound hstep with
    | handledHangup hpc hcq' hop' hres hbufs =>
      rw [hcq] at hcq'
      cases hcq'
      rw [hop] at hop'
      cases hop'
    | _ => rfl
  have howes : StateOwes s fd [] := by
    refine .completed (by rw [hcq]; exact List.mem_cons_self ..) ?_
    simp [owedCqe, hop, hfd]
  rw [hconns]
  refine ⟨?_, fun c hc hcfd => ?_⟩
  · rcases List.mem_map.mp ((wired_of_reachable h.of_restrict).mem_fds howes.weight) with
      ⟨c, hc, hcfd⟩
    exact ⟨c, hc, hcfd⟩
  · rw [echoed_of_reachable h fd [] howes c hc hcfd, List.append_nil]

def oneMessage : List Event :=
  connect 5 ++ [.take 0 7, .complete 0 2 [104, 105], .handle, .endPass, .submit 1, .issue]

theorem echo_exact_two_messages : ∃ s t,
    Reachable (restrict Faithful step) (State.init 3) s ∧ step s .handle = some t ∧
      t.conns.map Conn.received = [[104, 105, 106]] ∧
      ∀ c ∈ t.conns, c.fd = 5 → c.sent = c.received := by
  have hrun : (run (restrict Faithful step) (State.init 3) (oneMessage ++ ([.complete 1 2 [],
      .handle, .endPass, .submit 2, .provide 0, .issue, .take 1 8, .complete 1 1 [106], .handle,
      .handle, .endPass, .submit 1, .issue, .complete 1 1 []] : List Event))).bind (fun s =>
        (step s .handle).map fun t => (s.cq, t.conns.map Conn.received)) =
      some ([⟨addSocketWrite 5 8 1 0, 1, 0⟩], [[104, 105, 106]]) := by
    decide +kernel
  rcases Option.bind_eq_some_iff.mp hrun with ⟨s, hreach, hmap⟩
  rcases Option.map_eq_some_iff.mp hmap with ⟨t, hstep, hview⟩
  simp only [Prod.mk.injEq] at hview
  refine ⟨s, t, ⟨_, hreach⟩, hstep, hview.2, ?_⟩
  refine (echo_exact ⟨_, hreach⟩ hstep hview.1 rfl ?_).2
  simp [handleCqe, Cqe.userData, addSocketWrite, enobufs]

/-- The kernel takes one byte of the message. The server goes on to the next
message and the second byte is never sent. And after a hang-up that doubled a
buffer, a client is sent the bytes of another, with every send in full. -/
theorem short_send_loses_byte :
    (∃ s t cqe rest, Reachable step (State.init 3) s ∧ step s .handle = some t ∧
      s.cq = cqe :: rest ∧ cqe.userData = ⟨5, .write, 7⟩ ∧
      addSocketRead 5 groupId maxMessageLen iosqeBufferSelect ∈ t.sq ∧
      t.conns = [⟨0, 5, [104, 105], [104]⟩]) ∧
    ∃ s, Reachable (restrict Whole step) (State.init 3) s ∧
      s.conns = [⟨1, 5, [104, 105], [106, 107]⟩, ⟨2, 6, [106, 107], []⟩] := by
  have hshort : (run step (State.init 3) (oneMessage ++ [.complete 1 1 []])).bind (fun s =>
      (step s .handle).map fun t => (s.cq, t.sq, t.conns)) =
      some ([⟨addSocketWrite 5 7 2 0, 1, 0⟩], [addProvideBuf 7 groupId,
        addSocketRead 5 groupId maxMessageLen iosqeBufferSelect],
        [⟨0, 5, [104, 105], [104]⟩]) := by
    decide +kernel
  have hmixed : (run (restrict Whole step) (State.init 3) (hangupThenTwo ++ ([.endPass, .submit 2,
      .issue, .issue, .complete 1 2 [], .handle] : List Event))).map State.conns =
      some [⟨1, 5, [104, 105], [106, 107]⟩, ⟨2, 6, [106, 107], []⟩] := by
    decide +kernel
  rcases Option.bind_eq_some_iff.mp hshort with ⟨s, hreach, hmap⟩
  rcases Option.map_eq_some_iff.mp hmap with ⟨t, hstep, hview⟩
  rcases Reachable.of_view hmixed with ⟨u, hreach', hconns⟩
  simp only [Prod.mk.injEq] at hview
  refine ⟨⟨s, t, _, _, ⟨_, hreach⟩, hstep, hview.1, rfl, ?_, hview.2.2⟩, u, hreach', hconns⟩
  rw [hview.2.1]
  simp

end IoWrapper.Echo.Fidelity
