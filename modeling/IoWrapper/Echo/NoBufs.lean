import IoWrapper.Echo.Pending

/-! The exit that should not happen. With at most 4096 connections a receive
finds a buffer in the group: the buffers that are out are each out for a
connection that is not waiting in this receive, and one on its way back is
issued before the receive that it was queued with. -/
namespace IoWrapper.Echo.NoBufs
open Core.Machine Core.Pool Server Accounting Pending

def everyFd (_ : Nat) : Bool := true

def load (s : State) : Nat := pendingOn s everyFd

def unanswered (s : State) : Nat := total (returned everyFd) s.cq

/-- At most 4096 accepted connections are open after the step, apart from those
whose accept has not been processed, and no entry fails to give its buffer back. -/
def Within (s : State) (event : Event) : Prop :=
  (∀ t ∈ step s event, t.conns.length ≤ maxConnections + unanswered t) ∧
    match event with
    | .provide res => 0 ≤ res
    | _ => True

instance (s : State) (event : Event) : Decidable (Within s event) :=
  match event with
  | .provide res => inferInstanceAs (Decidable (_ ∧ 0 ≤ res))
  | .submit _ | .handle | .endPass | .issue | .take .. | .giveBack _ | .complete .. =>
    inferInstanceAs (Decidable (_ ∧ True))

def sends (sqe : Sqe) : Nat :=
  match sqe.op with
  | .send _ _ _ => 1
  | .accept _ | .recv _ _ | .provideBuffers _ _ _ => 0

def provides (sqe : Sqe) : Nat :=
  match sqe.op with
  | .provideBuffers _ _ _ => 1
  | .accept _ | .recv _ _ | .send _ _ _ => 0

def recvs (sqe : Sqe) : Nat :=
  match sqe.op with
  | .recv _ _ => 1
  | .accept _ | .send _ _ _ | .provideBuffers _ _ _ => 0

def queuedStock (sqe : Sqe) : Nat := sends sqe + provides sqe

def issuedStock (f : Issued) : Nat :=
  match f.sqe.op with
  | .send _ _ _ => 1
  | .recv _ _ => if f.held.isSome then 1 else 0
  | .accept _ | .provideBuffers _ _ _ => 0

def completedStock (cqe : Cqe) : Nat :=
  match cqe.sqe.op with
  | .send _ _ _ => 1
  | .recv _ _ => if cqe.flags % 2 = 1 then 1 else 0
  | .accept _ | .provideBuffers _ _ _ => 0

def stock (s : State) : Nat :=
  s.group.length + weigh queuedStock issuedStock completedStock s

structure Stocked (s : State) : Prop where
  enough : buffersCount ≤ stock s
  covered : Covered (load s) maxConnections provides recvs (queue s)

theorem load_eq {s : State} (hs : Wired s) : load s + unanswered s = s.conns.length := by
  have hties := hs.ties everyFd
  rw [opWeigh_eq_pendingOn] at hties
  unfold load unanswered
  rw [hties]
  have hone : ∀ fds : List Nat, total (indicator everyFd) fds = fds.length := by
    intro fds
    induction fds with
    | nil => rfl
    | cons fd fds ih =>
      rw [total_cons, ih, List.length_cons, indicator, everyFd]
      simp only [if_true]
      omega
  rw [hone, List.length_map]

theorem load_answered {s : State} {cqe : Cqe} {rest : List Cqe} (hcq : s.cq = cqe :: rest)
    (more : List Sqe) :
    load (s.answered rest more) + onFd everyFd cqe.sqe.op =
      load s + total (fun sqe => onFd everyFd sqe.op) more :=
  opWeigh_answered (onFd everyFd) (fun _ => 0) hcq more

theorem stock_answered {s : State} {cqe : Cqe} {rest : List Cqe} (hcq : s.cq = cqe :: rest)
    (more : List Sqe) :
    stock (s.answered rest more) + completedStock cqe =
      stock s + total queuedStock more := by
  have hmove := weigh_answered queuedStock issuedStock completedStock
    hcq more
  unfold stock
  rw [answered_group]
  omega

theorem Stocked.answered {s : State} {cqe : Cqe} {rest : List Cqe} (hs : Stocked s)
    (hcq : s.cq = cqe :: rest) (more : List Sqe)
    (hstock : completedStock cqe ≤ total queuedStock more)
    (hload : total (fun sqe => onFd everyFd sqe.op) more + total provides more ≤
      onFd everyFd cqe.sqe.op + total recvs more)
    (hmore : Covered (load (s.answered rest more)) maxConnections provides recvs more) :
    Stocked (s.answered rest more) := by
  have hstocked := stock_answered hcq more
  have hloaded := load_answered hcq more
  refine ⟨by have := hs.enough; omega, ?_⟩
  rw [queue_answered]
  exact hs.covered.append (by omega) hmore

theorem Stocked.posted {s u : State} {i : Nat} {f : Issued} (hs : Stocked s) (res : Int)
    (flags : Nat) (hf : u.inflight[i]? = some f) (hgroup : u.group = s.group)
    (hqueue : queue u = queue s)
    (hsame : ∀ queued issued completed,
      weigh queued issued completed u = weigh queued issued completed s)
    (hstock : issuedStock f ≤ completedStock ⟨f.sqe, res, flags⟩) :
    Stocked (u.post i ⟨f.sqe, res, flags⟩) := by
  have hload : load (u.post i ⟨f.sqe, res, flags⟩) = load s := by
    unfold load pendingOn
    rw [opWeigh_post _ _ res flags hf]
    exact hsame _ _ _
  have hmove := weigh_post queuedStock issuedStock completedStock
    ⟨f.sqe, res, flags⟩ hf
  refine ⟨?_, ?_⟩
  · have henough := hs.enough
    unfold stock at henough ⊢
    rw [post_group, hgroup]
    rw [hsame] at hmove
    omega
  · rw [hload, show queue (u.post i ⟨f.sqe, res, flags⟩) = queue u from rfl, hqueue]
    exact hs.covered

theorem Stocked.submitted {s : State} (hs : Stocked s) (count : Nat) (pc : Pc) :
    Stocked { s with
      sq := s.sq.drop count
      submitted := s.submitted ++ s.sq.take count
      pc := pc } := by
  refine ⟨?_, ?_⟩
  · unfold stock
    rw [weigh_submitted]
    exact hs.enough
  · rw [queue_submitted]
    unfold load pendingOn
    rw [opWeigh_submitted]
    exact hs.covered

theorem Stocked.covered_rest {s : State} {sqe : Sqe} {rest : List Sqe} (hs : Stocked s)
    (hsub : s.submitted = sqe :: rest) :
    Covered (load s) maxConnections provides recvs (rest ++ s.sq) := by
  have hcovered := hs.covered
  rw [queue, hsub, List.cons_append] at hcovered
  exact hcovered.of_cons

theorem Stocked.issued {s : State} {sqe : Sqe} {rest : List Sqe} (hs : Stocked s)
    (hsub : s.submitted = sqe :: rest) (hstock : issuedStock ⟨sqe, none⟩ = queuedStock sqe) :
    Stocked { s with
      submitted := rest
      inflight := s.inflight ++ [⟨sqe, none⟩] } := by
  have hmove := weigh_issued queuedStock issuedStock completedStock hsub
  refine ⟨?_, ?_⟩
  · have henough := hs.enough
    unfold stock at henough ⊢
    simp only at hmove ⊢
    omega
  · unfold load pendingOn
    rw [opWeigh_issued _ _ hsub]
    exact hs.covered_rest hsub

theorem Stocked.provided {s : State} {sqe : Sqe} {rest : List Sqe} {bid len nr : Nat} (res : Int)
    (hs : Stocked s) (hsub : s.submitted = sqe :: rest)
    (hop : sqe.op = .provideBuffers bid len nr) :
    Stocked { s with
      submitted := rest
      group := s.group ++ [bid]
      cq := s.cq ++ [⟨sqe, res, 0⟩] } := by
  have hmove := weigh_provided queuedStock issuedStock completedStock
    (s.group ++ [bid]) ⟨sqe, res, 0⟩ hsub
  simp only [queuedStock, sends, provides, completedStock, hop] at hmove
  refine ⟨?_, ?_⟩
  · have henough := hs.enough
    unfold stock at henough ⊢
    simp only [List.length_append, List.length_singleton]
    omega
  · unfold load pendingOn
    rw [opWeigh_provided _ _ _ _ hsub]
    exact hs.covered_rest hsub

theorem Stocked.lent {s : State} {i : Nat} {sqe : Sqe} {held : Option Nat} (hs : Stocked s)
    (group : List Nat) (held' : Option Nat) (hf : s.inflight[i]? = some ⟨sqe, held⟩)
    (hstock : s.group.length + issuedStock ⟨sqe, held⟩ ≤
      group.length + issuedStock ⟨sqe, held'⟩) :
    Stocked { s with
      group := group
      inflight := s.inflight.set i ⟨sqe, held'⟩ } := by
  have hmove := weigh_lent queuedStock issuedStock completedStock group ⟨sqe, held'⟩ hf
  refine ⟨?_, ?_⟩
  · have henough := hs.enough
    unfold stock at henough ⊢
    simp only at hmove ⊢
    omega
  · unfold load pendingOn
    rw [opWeigh_lent _ _ _ _ hf]
    exact hs.covered

theorem Stocked.close {s : State} (hs : Stocked s) (fd : Nat) : Stocked (s.close fd) := by
  refine ⟨?_, ?_⟩
  · unfold stock
    rw [close_group, weigh_close]
    exact hs.enough
  · unfold load pendingOn
    rw [queue_close, opWeigh_close]
    exact hs.covered

theorem onFd_everyFd (sqe : Sqe) : onFd everyFd sqe.op = sends sqe + recvs sqe := by
  cases hop : sqe.op <;> simp [onFd, sends, recvs, hop, indicator, everyFd]

theorem issuedStock_le (f : Issued) : issuedStock f ≤ onFd everyFd f.sqe.op := by
  unfold issuedStock
  split
  · rename_i hop
    simp [hop, onFd, indicator, everyFd]
  · rename_i hop
    rw [hop]
    split
    · exact Nat.le_refl _
    · exact Nat.zero_le _
  · exact Nat.zero_le _
  · exact Nat.zero_le _

theorem completedStock_le (cqe : Cqe) : completedStock cqe ≤ onFd everyFd cqe.sqe.op := by
  unfold completedStock
  split
  · rename_i hop
    simp [hop, onFd, indicator, everyFd]
  · rename_i hop
    rw [hop]
    split
    · exact Nat.le_refl _
    · exact Nat.zero_le _
  · exact Nat.zero_le _
  · exact Nat.zero_le _

theorem Stocked.group_ne_nil {s : State} {i fd len : Nat} {sqe : Sqe} (hs : Stocked s)
    (hf : s.inflight[i]? = some ⟨sqe, none⟩) (hop : sqe.op = .recv fd len) :
    s.group ≠ [] := by
  intro hempty
  have henough := hs.enough
  have hcovered := hs.covered (queue s) (List.suffix_refl _)
  have hqueue : total (fun sqe => onFd everyFd sqe.op) (queue s) =
      total sends (queue s) + total recvs (queue s) := by
    rw [← total_add]
    congr 1
    funext own
    exact onFd_everyFd own
  have hinflight : total issuedStock s.inflight + 1 ≤
      total (fun f => onFd everyFd f.sqe.op) s.inflight := by
    have hrest := total_mono (s.inflight.eraseIdx i) fun f _ => issuedStock_le f
    have hnone : issuedStock ⟨sqe, none⟩ = 0 := by simp [issuedStock, hop]
    have hone : onFd everyFd sqe.op = 1 := by simp [onFd, hop, indicator, everyFd]
    rw [total_eraseIdx issuedStock hf, total_eraseIdx (fun f => onFd everyFd f.sqe.op) hf]
    simp only [hnone, hone]
    omega
  have hcq := total_mono s.cq fun cqe _ => completedStock_le cqe
  have hload : load s = total (fun sqe => onFd everyFd sqe.op) (queue s) +
      total (fun f => onFd everyFd f.sqe.op) s.inflight +
      total (fun cqe => onFd everyFd cqe.sqe.op) s.cq := rfl
  have hout : total queuedStock (queue s) = total sends (queue s) + total provides (queue s) :=
    total_add sends provides (queue s)
  unfold stock weigh at henough
  rw [hempty] at henough
  simp only [List.length_nil, buffersCount] at henough
  omega

theorem Stocked.step {s t : State} {event : Event} (hs : Stocked s) (hwithin : Within s event)
    (h : Step s event t) (hbound : load t ≤ maxConnections) : Stocked t := by
  cases h with
  | submitted hpc => exact hs.submitted _ _
  | passEnded | exited => exact ⟨hs.enough, hs.covered⟩
  | @handledProvide cqe rest bid len nr hpc hcq hop hres =>
    refine hs.answered hcq [] ?_ ?_ (covered_nil hbound)
    · simp [completedStock, hop]
    · simp [onFd, hop]
  | @handledAccept cqe rest fd hpc hcq hop hres =>
    refine hs.answered hcq _ ?_ ?_ (((covered_nil hbound).cons ?_).cons ?_)
    · simp [completedStock, hop]
    · simp [onFd, hop, provides, recvs, indicator, everyFd]
    · simpa [provides, recvs] using hbound
    · simp only [provides, recvs, addAccept_op, addSocketRead_op, total_cons, total_nil]
      omega
  | @handledAcceptError cqe rest fd hpc hcq hop hres =>
    refine hs.answered hcq _ ?_ ?_ ((covered_nil hbound).cons ?_)
    · simp [completedStock, hop]
    · simp [onFd, hop, provides, recvs]
    · simpa [provides, recvs] using hbound
  | @handledHangup cqe rest fd len hpc hcq hop hres hbufs =>
    apply Stocked.close
    -- The buffer goes back before the connection is closed, and until then it counts.
    have hloaded := load_answered hcq [addProvideBuf (cqe.flags >>> 16) groupId]
    simp only [onFd, hop, addProvideBuf_op, indicator, everyFd, if_true, total_cons,
      total_nil] at hloaded
    have hbase := hs.covered.base_le
    refine hs.answered hcq _ ?_ ?_ ((covered_nil (by omega)).cons ?_)
    · simp only [completedStock, hop, queuedStock, sends, provides, addProvideBuf_op, total_cons,
        total_nil]
      split <;> omega
    · simp [onFd, hop, provides, recvs, indicator, everyFd]
    · simp only [provides, recvs, addProvideBuf_op, total_cons, total_nil]
      omega
  | @handledRead cqe rest fd len hpc hcq hop hres =>
    refine hs.answered hcq _ ?_ ?_ ((covered_nil hbound).cons ?_)
    · simp only [completedStock, hop, queuedStock, sends, provides, addSocketWrite_op, total_cons,
        total_nil]
      split <;> omega
    · simp [onFd, hop, provides, recvs, indicator, everyFd]
    · simpa [provides, recvs] using hbound
  | @handledWrite cqe rest fd bid len hpc hcq hop =>
    refine hs.answered hcq _ ?_ ?_ (((covered_nil hbound).cons ?_).cons ?_)
    · simp [completedStock, hop, queuedStock, sends, provides]
    · simp [onFd, hop, provides, recvs, indicator, everyFd]
    · simp only [provides, recvs, addSocketRead_op, total_cons, total_nil]
      omega
    · simp only [provides, recvs, addSocketRead_op, addProvideBuf_op, total_cons, total_nil]
      omega
  | @issued sqe rest hsub htype =>
    apply hs.issued hsub
    cases hop : sqe.op with
    | provideBuffers bid len nr =>
      rw [userData_of_op hop] at htype
      exact absurd rfl htype
    | _ => simp [issuedStock, queuedStock, sends, provides, hop]
  | @provided sqe rest bid len nr res hsub hop =>
    have hres : 0 ≤ res := hwithin.2
    simp only [hres, if_true]
    exact hs.provided res hsub hop
  | @took i bid fd len sqe hf hop hbid =>
    apply hs.lent (s.group.erase bid) (some bid) hf
    have hpos := List.length_pos_of_mem hbid
    simp only [List.length_erase_of_mem hbid, issuedStock, hop, Option.isSome_some,
      Option.isSome_none, if_true, Bool.false_eq_true, if_false]
    omega
  | @gaveBack i bid fd len sqe hf hop =>
    apply hs.lent (s.group ++ [bid]) none hf
    simp [issuedStock, hop]
  | accepted hf hop =>
    exact hs.posted _ _ hf rfl rfl (fun _ _ _ => rfl) (by simp [issuedStock, hop])
  | acceptFailed hf hop =>
    exact hs.posted _ _ hf rfl rfl (fun _ _ _ => rfl) (by simp [issuedStock, hop])
  | @received i fd len bid sqe res data hf hop hbufs hdata hlen =>
    refine hs.posted res _ (show (s.receive fd bid data).inflight[i]? = _ from hf) rfl rfl
      (fun _ _ _ => rfl) ?_
    simp [issuedStock, completedStock, hop]
  | recvFailed hf hop =>
    exact hs.posted _ _ hf rfl rfl (fun _ _ _ => rfl) (by simp [issuedStock, hop])
  | sent hf hop =>
    exact hs.posted _ _ hf rfl rfl (fun _ _ _ => rfl)
      (by simp [issuedStock, completedStock, hop])

theorem stocked_init (listenFd : Nat) : Stocked (State.init listenFd) := by
  refine ⟨?_, ?_⟩
  · unfold stock
    rw [State.init, List.length_range]
    exact Nat.le_add_right _ _
  · refine Covered.cons (covered_nil ?_) ?_
    · exact Nat.zero_le _
    · exact Nat.zero_le _

theorem stocked_of_reachable {listenFd : Nat} {s : State}
    (h : Reachable (restrict Within step) (State.init listenFd) s) : Stocked s := by
  refine h.invariant Stocked (stocked_init listenFd) fun s event t hreach hs hstep => ?_
  have hboth := restrict_eq_some.mp hstep
  refine hs.step hboth.1 (step_sound hboth.2) ?_
  have hopen := hboth.1.1 t hboth.2
  have hload := load_eq (wired_of_reachable (hreach.of_restrict.tail hboth.2))
  omega

/-- With at most 4096 connections open no receive completes for want of a
buffer, and no completion of a receive makes the server exit. -/
theorem read_finds_buffer {listenFd : Nat} {s : State}
    (h : Reachable (restrict Within step) (State.init listenFd) s) :
    ∀ cqe ∈ s.cq, cqe.userData.type = .read →
      cqe.res ≠ -enobufs ∧ (handleCqe s.listenFd cqe).exit = none := by
  have hbufs : ∀ cqe ∈ s.cq, cqe.userData.type = .read → cqe.res ≠ -enobufs := by
    refine h.invariant (fun s => ∀ cqe ∈ s.cq, cqe.userData.type = .read → cqe.res ≠ -enobufs)
      (fun cqe hcqe => by cases hcqe) fun s event t hreach hs hstep => ?_
    have hstocked := stocked_of_reachable hreach
    refine cq_step _ hs (step_sound (restrict_eq_some.mp hstep).2) ?_ ?_ ?_
    · intro cqe hother htype
      exact absurd htype hother
    · intro sqe res bid hne _ _
      exact hne
    · intro i fd len sqe res data _ hf hop _ hempty _ hres
      exact hstocked.group_ne_nil hf hop (hempty hres)
  intro cqe hcqe htype
  refine ⟨hbufs cqe hcqe htype, ?_⟩
  simp only [handleCqe, hbufs cqe hcqe htype, htype, if_false]
  split <;> rfl

theorem read_finds_buffer_two_clients : ∃ s,
    Reachable (restrict Within step) (State.init 3) s ∧
      s.cq.map (fun cqe => (cqe.userData, cqe.res)) = [(⟨5, .read, 0⟩, 0), (⟨6, .read, 0⟩, 2)] ∧
      ∀ cqe ∈ s.cq, (handleCqe s.listenFd cqe).exit = none := by
  have hrun : (run (restrict Within step) (State.init 3) (connect 5 ++ ([.complete 1 6 [],
      .handle, .endPass, .submit 2, .issue, .issue, .complete 0 0 [], .take 0 7,
      .complete 0 2 [104, 105]] : List Event))).map
        (fun s => s.cq.map (fun cqe => (cqe.userData, cqe.res))) =
      some [(⟨5, .read, 0⟩, 0), (⟨6, .read, 0⟩, 2)] := by
    decide +kernel
  rcases Reachable.of_view hrun with ⟨s, hreach, hview⟩
  refine ⟨s, hreach, hview, fun cqe hcqe => ?_⟩
  have hmem : (cqe.userData, cqe.res) ∈ s.cq.map (fun cqe => (cqe.userData, cqe.res)) :=
    List.mem_map_of_mem hcqe
  rw [hview] at hmem
  refine (read_finds_buffer hreach cqe hcqe ?_).2
  simp only [List.mem_cons, Prod.mk.injEq, List.not_mem_nil, or_false] at hmem
  rcases hmem with hmem | hmem
  · rw [hmem.1]
  · rw [hmem.1]

end IoWrapper.Echo.NoBufs
