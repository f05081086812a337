import IoWrapper.EpollDemo.Server

/-! What becomes of the connections. Each one is relayed, a chunk for a report. One that its
client has ended is taken out of the epoll instance and shut down, and then no event names it
any more: it is never closed, and its descriptor is lost. -/
namespace IoWrapper.EpollDemo.Connections
open Core.Machine Core.Calls Core.Relay Server

def due : Pc → List Nat
  | .waiting | .exited _ => []
  | .accepting rest => rest.map Report.fd
  | .adding fd rest | .receiving fd rest | .removing fd rest | .shuttingDown fd rest
  | .sending fd _ rest | .closing fd rest => fd :: rest.map Report.fd

/-- The chunk that is about to be sent on the descriptor. -/
def owed (s : State) (fd : Nat) : Option (List UInt8) :=
  match s.pc with
  | .sending own len _ => if own = fd then some (s.buffer.take len) else none
  | _ => none

structure Orderly (sockfd : Nat) (w : World) (s : State) : Prop where
  nodup : (due s.pc).Nodup
  isOpen : ∀ fd ∈ due s.pc, fd ≠ sockfd → ∃ c, w.conns fd = some c ∧ c.shut = false
  listener : w.conns sockfd = none
  ended : ∀ fd c, w.conns fd = some c → c.shut = true → c.interest = false
  removed : ∀ fd rest, s.pc = .shuttingDown fd rest →
    ∀ c, w.conns fd = some c → c.interest = false
  logs : ∀ fd c, w.conns fd = some c → Makes c.log (owed s fd)

section Moves

variable {sockfd fd : Nat} {w w' : World} {s s' : State} {rest : List Report}

theorem due_next (events : List Report) :
    (due (next sockfd events)).Sublist (events.map Report.fd) := by
  have hnext := next_spec sockfd events
  generalize next sockfd events = pc at hnext ⊢
  cases hnext with
  | done => exact List.Sublist.refl _
  | broken | conn => exact List.Sublist.refl _
  | listener => exact List.sublist_cons_self _ _

theorem next_ne_shuttingDown {events : List Report} :
    next sockfd events ≠ .shuttingDown fd rest := by
  intro h
  have hnext := next_spec sockfd events
  rw [h] at hnext
  cases hnext

theorem owed_next {events : List Report} {buffer : List UInt8} :
    owed ⟨next sockfd events, buffer⟩ fd = none := by
  have hnext := next_spec sockfd events
  generalize next sockfd events = pc at hnext ⊢
  cases hnext <;> rfl

theorem Orderly.change (h : Orderly sockfd w s) (hdue : (due s'.pc).Sublist (due s.pc))
    (hconns : ∀ other, other ≠ fd → w'.conns other = w.conns other)
    (hlistener : w'.conns sockfd = none)
    (hopen : fd ∈ due s'.pc → fd ≠ sockfd → ∃ c, w'.conns fd = some c ∧ c.shut = false)
    (hended : ∀ c, w'.conns fd = some c → c.shut = true → c.interest = false)
    (hremoved : ∀ other rest, s'.pc = .shuttingDown other rest →
      ∀ c, w'.conns other = some c → c.interest = false)
    (hlog : ∀ c, w'.conns fd = some c → Makes c.log (owed s' fd))
    (howed : ∀ other, other ≠ fd → owed s' other = owed s other) : Orderly sockfd w' s' := by
  constructor
  case nodup => exact h.nodup.sublist hdue
  case isOpen =>
    intro other hother hne
    by_cases heq : other = fd
    · subst heq
      exact hopen hother hne
    · rw [hconns other heq]
      exact h.isOpen other (hdue.subset hother) hne
  case listener => exact hlistener
  case ended =>
    intro other c hc
    by_cases heq : other = fd
    · subst heq
      exact hended c hc
    · rw [hconns other heq] at hc
      exact h.ended other c hc
  case removed => exact hremoved
  case logs =>
    intro other c hc
    by_cases heq : other = fd
    · subst heq
      exact hlog c hc
    · rw [hconns other heq] at hc
      rw [howed other heq]
      exact h.logs other c hc

theorem Orderly.finish (h : Orderly sockfd w s) (hdue : due s.pc = fd :: rest.map Report.fd)
    (howed : ∀ other, other ≠ fd → owed s other = none)
    (hconns : ∀ other, other ≠ fd → w'.conns other = w.conns other)
    (hlistener : w'.conns sockfd = none)
    (hended : ∀ c, w'.conns fd = some c → c.shut = true → c.interest = false)
    (hlog : ∀ c, w'.conns fd = some c → Makes c.log none) :
    Orderly sockfd w' { s with pc := next sockfd rest } := by
  have hsub : (due (next sockfd rest)).Sublist (rest.map Report.fd) := due_next rest
  have hnodup := h.nodup
  rw [hdue, List.nodup_cons] at hnodup
  refine h.change ?_ hconns hlistener ?_ hended ?_ ?_ ?_
  · rw [hdue]
    exact hsub.trans (List.sublist_cons_self _ _)
  · exact fun hin => absurd (hsub.subset hin) hnodup.1
  · exact fun other rest hpc => absurd hpc next_ne_shuttingDown
  · rw [owed_next]
    exact hlog
  · intro other hne
    rw [howed other hne]
    exact owed_next

theorem owed_of_not_sending (h : ∀ own len rest, s.pc ≠ .sending own len rest) :
    owed s fd = none := by
  unfold owed
  split
  · rename_i hpc
    exact absurd hpc (h _ _ _)
  · rfl

theorem owed_of_ne {own len : Nat} (hpc : s.pc = .sending own len rest) (hne : fd ≠ own) :
    owed s fd = none := by
  simp [owed, hpc, hne.symm]

theorem alter_conns_of_ne {f : Conn → Conn} {other : Nat} (hne : other ≠ fd) :
    (w.alter fd f).conns other = w.conns other :=
  Function.update_of_ne hne ..

theorem alter_conns (f : Conn → Conn) : (w.alter fd f).conns fd = (w.conns fd).map f :=
  Function.update_self ..

theorem alter_listener (f : Conn → Conn) (h : w.conns sockfd = none) :
    (w.alter fd f).conns sockfd = none := by
  by_cases heq : sockfd = fd
  · rw [← heq, alter_conns, h]
    rfl
  · rw [alter_conns_of_ne heq]
    exact h

theorem setConn_conns (c : Conn) : (w.setConn fd c).conns fd = some c := Function.update_self ..

theorem setConn_conns_of_ne {c : Conn} {other : Nat} (hne : other ≠ fd) :
    (w.setConn fd c).conns other = w.conns other :=
  Function.update_of_ne hne ..

theorem Orderly.report {events : List Report} (h : Orderly sockfd w s) (hpc : s.pc = .waiting)
    (hnodup : (events.map Report.fd).Nodup)
    (hreports : ∀ event ∈ events, w.Reports sockfd event) :
    Orderly sockfd (w.report sockfd events) { s with pc := next sockfd events } := by
  constructor
  case nodup => exact hnodup.sublist (due_next events)
  case isOpen =>
    intro fd hfd hne
    rcases List.mem_map.mp ((due_next events).subset hfd) with ⟨event, hevent, rfl⟩
    rcases hreports event hevent with ⟨hlistener, -⟩ | ⟨c, hc, hinterest⟩
    · exact absurd hlistener hne
    · refine ⟨c, hc, ?_⟩
      by_contra hshut
      rw [Bool.not_eq_false] at hshut
      rw [h.ended _ c hc hshut] at hinterest
      cases hinterest
  case listener => exact h.listener
  case ended => exact h.ended
  case removed => exact fun fd rest hnext => absurd hnext next_ne_shuttingDown
  case logs =>
    intro fd c hc
    have hlog := h.logs fd c hc
    rw [owed_of_not_sending (by simp [hpc])] at hlog
    rw [owed_next]
    exact hlog

theorem Orderly.accept (h : Orderly sockfd w s) (hpc : s.pc = .accepting rest) (hne : fd ≠ sockfd)
    (hfree : w.conns fd = none) :
    Orderly sockfd ({ w with backlog := w.backlog - 1 }.setConn fd ⟨false, false, []⟩)
      { s with pc := .adding fd rest } := by
  have hnodup := h.nodup
  have hisOpen := h.isOpen
  rw [hpc] at hnodup hisOpen
  have hnew : fd ∉ rest.map Report.fd := by
    intro hin
    rcases hisOpen fd hin hne with ⟨c, hc, -⟩
    rw [hfree] at hc
    cases hc
  constructor
  case nodup => exact List.nodup_cons.mpr ⟨hnew, hnodup⟩
  case isOpen =>
    intro other hother hsock
    rcases List.mem_cons.mp hother with rfl | hrest
    · exact ⟨_, setConn_conns _, rfl⟩
    · have hapart : other ≠ fd := by
        rintro rfl
        exact hnew hrest
      rw [setConn_conns_of_ne hapart]
      exact hisOpen other hrest hsock
  case listener =>
    rw [setConn_conns_of_ne hne.symm]
    exact h.listener
  case ended =>
    intro other c hc
    by_cases heq : other = fd
    · rw [heq, setConn_conns] at hc
      cases hc
      exact fun hshut => absurd hshut Bool.false_ne_true
    · rw [setConn_conns_of_ne heq] at hc
      exact h.ended other c hc
  case removed =>
    intro other rest hpc
    cases hpc
  case logs =>
    intro other c hc
    by_cases heq : other = fd
    · rw [heq, setConn_conns] at hc
      cases hc
      exact makes_nil
    · rw [setConn_conns_of_ne heq] at hc
      have hlog := h.logs other c hc
      rw [owed_of_not_sending (by simp [hpc])] at hlog
      exact hlog

theorem Orderly.ne_listener {c : Conn} (h : Orderly sockfd w s) (hconn : w.conns fd = some c) :
    fd ≠ sockfd := by
  rintro rfl
  rw [h.listener] at hconn
  cases hconn

theorem Orderly.not_shut {c : Conn} (h : Orderly sockfd w s) (hfd : fd ∈ due s.pc)
    (hconn : w.conns fd = some c) : c.shut = false := by
  rcases h.isOpen fd hfd (h.ne_listener hconn) with ⟨own, hown, hshut⟩
  cases hconn.symm.trans hown
  exact hshut

theorem alter_eq_some {f : Conn → Conn} {c : Conn} (h : (w.alter fd f).conns fd = some c) :
    ∃ own, w.conns fd = some own ∧ c = f own := by
  rw [alter_conns] at h
  rcases Option.map_eq_some_iff.mp h with ⟨own, hown, rfl⟩
  exact ⟨own, hown, rfl⟩

theorem Orderly.receive {bytes : List UInt8} {c : Conn} (h : Orderly sockfd w s)
    (hpc : s.pc = .receiving fd rest) (hconn : w.conns fd = some c) :
    Orderly sockfd (w.setConn fd { c with log := c.log ++ [.took bytes] })
      ⟨.sending fd bytes.length rest, bytes ++ s.buffer.drop bytes.length⟩ := by
  have hidle : ∀ other, owed s other = none :=
    fun other => owed_of_not_sending (by simp [hpc])
  have hdue : due s.pc = fd :: rest.map Report.fd := by rw [hpc]; rfl
  have hshut : c.shut = false := h.not_shut (by simp [hdue]) hconn
  refine h.change ?_ (fun other hne => setConn_conns_of_ne hne) ?_ ?_ ?_ ?_ ?_ ?_
  · rw [hdue]
    exact List.Sublist.refl _
  · rw [setConn_conns_of_ne (h.ne_listener hconn).symm]
    exact h.listener
  · exact fun _ _ => ⟨_, setConn_conns _, hshut⟩
  · intro c' hc'
    rw [setConn_conns] at hc'
    cases hc'
    exact h.ended fd c hconn
  · intro other rest hother
    cases hother
  · intro c' hc'
    rw [setConn_conns] at hc'
    cases hc'
    have hlog := h.logs fd c hconn
    rw [hidle] at hlog
    simpa [owed] using hlog.took bytes
  · intro other hne
    rw [hidle, owed_of_ne rfl hne]

theorem Orderly.send {len : Nat} {res : Int} {c c' : Conn} (h : Orderly sockfd w s)
    (hpc : s.pc = .sending fd len rest) (hconn : w.conns fd = some c)
    (hended : c'.shut = true → c'.interest = false) (hshut : c'.shut = c.shut)
    (hlog : Makes c'.log none) :
    Orderly sockfd (w.setConn fd c')
      { s with pc := if res < 0 then .closing fd rest else next sockfd rest } := by
  have hdue : due s.pc = fd :: rest.map Report.fd := by rw [hpc]; rfl
  have hlistener : (w.setConn fd c').conns sockfd = none := by
    rw [setConn_conns_of_ne (h.ne_listener hconn).symm]
    exact h.listener
  have hnew : ∀ new, (w.setConn fd c').conns fd = some new → new = c' := by
    intro new hnew
    rw [setConn_conns] at hnew
    exact (Option.some.inj hnew).symm
  split
  · refine h.change ?_ (fun other hne => setConn_conns_of_ne hne) hlistener ?_ ?_ ?_ ?_ ?_
    · rw [hdue]
      exact List.Sublist.refl _
    · exact fun _ _ => ⟨c', setConn_conns _, hshut.trans (h.not_shut (by simp [hdue]) hconn)⟩
    · exact fun new hc => hnew new hc ▸ hended
    · intro other rest hother
      cases hother
    · exact fun new hc => hnew new hc ▸ hlog
    · intro other hne
      rw [owed_of_ne hpc hne]
      rfl
  · exact h.finish hdue (fun other hne => owed_of_ne hpc hne)
      (fun other hne => setConn_conns_of_ne hne) hlistener
      (fun new hc => hnew new hc ▸ hended) (fun new hc => hnew new hc ▸ hlog)

theorem Orderly.proceed {pc : Pc} (h : Orderly sockfd w s) (hdue : due pc = due s.pc)
    (hpc : ∀ fd rest, pc ≠ .shuttingDown fd rest)
    (howed : ∀ fd c, w.conns fd = some c → owed { s with pc := pc } fd = owed s fd) :
    Orderly sockfd w { s with pc := pc } := by
  constructor
  case nodup => exact hdue ▸ h.nodup
  case isOpen =>
    dsimp only
    rw [hdue]
    exact h.isOpen
  case listener => exact h.listener
  case ended => exact h.ended
  case removed => exact fun fd rest hshut => absurd hshut (hpc fd rest)
  case logs =>
    intro fd c hc
    rw [howed fd c hc]
    exact h.logs fd c hc

theorem Orderly.finishAltered {f : Conn → Conn} (h : Orderly sockfd w s)
    (hdue : due s.pc = fd :: rest.map Report.fd) (hidle : ∀ other, owed s other = none)
    (hlog : ∀ c, (f c).log = c.log)
    (hended : ∀ c, w.conns fd = some c → (f c).shut = true → (f c).interest = false) :
    Orderly sockfd (w.alter fd f) { s with pc := next sockfd rest } := by
  refine h.finish hdue (fun other _ => hidle other) (fun other hne => alter_conns_of_ne hne)
    (alter_listener _ h.listener) ?_ ?_
  · intro c hc
    rcases alter_eq_some hc with ⟨own, hown, rfl⟩
    exact hended own hown
  · intro c hc
    rcases alter_eq_some hc with ⟨own, hown, rfl⟩
    rw [hlog, ← hidle fd]
    exact h.logs fd own hown

theorem Orderly.remove (h : Orderly sockfd w s) (hpc : s.pc = .removing fd rest) :
    Orderly sockfd (w.alter fd fun c => { c with interest := false })
      { s with pc := .shuttingDown fd rest } := by
  have hidle : ∀ other, owed s other = none :=
    fun other => owed_of_not_sending (by simp [hpc])
  have hdue : due s.pc = fd :: rest.map Report.fd := by rw [hpc]; rfl
  refine h.change (by rw [hdue]; exact List.Sublist.refl _)
    (fun other hne => alter_conns_of_ne hne) (alter_listener _ h.listener) ?_ ?_ ?_ ?_ ?_
  · intro _ hne
    rcases h.isOpen fd (by simp [hdue]) hne with ⟨own, hown, hshut⟩
    exact ⟨_, (alter_conns _).trans (congrArg _ hown), hshut⟩
  · intro c hc
    rcases alter_eq_some hc with ⟨own, hown, rfl⟩
    exact fun _ => rfl
  · intro other more hother c hc
    cases hother
    rcases alter_eq_some hc with ⟨own, hown, rfl⟩
    rfl
  · intro c hc
    rcases alter_eq_some hc with ⟨own, hown, rfl⟩
    have hlog := h.logs fd own hown
    rw [hidle] at hlog
    exact hlog
  · intro other _
    rw [hidle]
    rfl

theorem Orderly.close (h : Orderly sockfd w s) (hpc : s.pc = .closing fd rest) :
    Orderly sockfd (w.close sockfd fd) { s with pc := next sockfd rest } := by
  have hdue : due s.pc = fd :: rest.map Report.fd := by rw [hpc]; rfl
  have hgone : ∀ c, (w.close sockfd fd).conns fd ≠ some c := by
    intro c hc
    have hnone : (w.close sockfd fd).conns fd = none := Function.update_self ..
    cases hnone.symm.trans hc
  have hkept : ∀ other, other ≠ fd → (w.close sockfd fd).conns other = w.conns other :=
    fun other hne => Function.update_of_ne hne ..
  refine h.finish hdue (fun other _ => owed_of_not_sending (by simp [hpc])) hkept ?_
    (fun c hc => absurd hc (hgone c)) (fun c hc => absurd hc (hgone c))
  by_cases heq : sockfd = fd
  · exact heq ▸ Function.update_self ..
  · rw [hkept sockfd heq]
    exact h.listener

theorem Orderly.exit (h : Orderly sockfd w s) (msg : String)
    (hpc : ∀ fd len rest, s.pc ≠ .sending fd len rest) :
    Orderly sockfd w { s with pc := .exited msg } := by
  refine ⟨List.nodup_nil, ?_, h.listener, h.ended, ?_, ?_⟩
  · exact fun fd hfd => absurd hfd List.not_mem_nil
  · intro fd rest hother
    cases hother
  · intro fd c hc
    have hlog := h.logs fd c hc
    rw [owed_of_not_sending hpc] at hlog
    exact hlog

theorem Orderly.step {event : Event} {t : World × State} (h : Orderly sockfd w s)
    (hstep : step sockfd (w, s) event = some t) : Orderly sockfd t.1 t.2 := by
  have hstep := step_sound hstep
  generalize t.1 = w' at hstep ⊢
  generalize t.2 = s' at hstep ⊢
  cases hstep with
  | connected => exact ⟨h.nodup, h.isOpen, h.listener, h.ended, h.removed, h.logs⟩
  | reported hpc hnodup hreports => exact h.report hpc hnodup hreports
  | exited msg hpc => exact h.exit msg hpc
  | accepted hpc hbacklog hne hfree => exact h.accept hpc hne hfree
  | @added fd rest res hpc =>
    have hdue : due s.pc = fd :: rest.map Report.fd := by rw [hpc]; rfl
    refine h.finishAltered hdue (fun other => owed_of_not_sending (by simp [hpc]))
      (fun _ => rfl) fun c hc htrue => ?_
    have hshut := h.not_shut (by simp [hdue]) hc
    exact absurd (hshut.symm.trans htrue) Bool.false_ne_true
  | received hpc hlen hle hres hconn => exact h.receive hpc hconn
  | ended hpc hres =>
    apply h.proceed
    · rw [hpc]
      rfl
    · exact fun fd rest hother => by cases hother
    · intro fd c _
      have hnone : owed s fd = none := owed_of_not_sending (by simp [hpc])
      rw [hnone]
      rfl
  | removed hpc => exact h.remove hpc
  | @shutDown fd rest res hpc =>
    have hdue : due s.pc = fd :: rest.map Report.fd := by rw [hpc]; rfl
    exact h.finishAltered hdue (fun other => owed_of_not_sending (by simp [hpc]))
      (fun _ => rfl) fun c hc _ => h.removed fd rest hpc c hc
  | @sent fd len rest res c hpc hle hconn =>
    have hlog := h.logs fd c hconn
    have howes : owed s fd = some (s.buffer.take len) := by simp [owed, hpc]
    rw [howes] at hlog
    exact h.send hpc hconn (h.ended fd c hconn) rfl (hlog.gave (List.take_prefix _ _))
  | @unsent own len rest res hpc hconn =>
    apply h.proceed
    · rw [hpc]
      rfl
    · exact fun fd rest hother => by cases hother
    · intro fd c hc
      have hne : fd ≠ own := by
        rintro rfl
        rw [hconn] at hc
        cases hc
      rw [owed_of_ne hpc hne]
      rfl
  | closed hpc => exact h.close hpc

end Moves

theorem orderly_init (sockfd : Nat) : Orderly sockfd World.init State.init := by
  refine ⟨List.nodup_nil, fun fd hfd => absurd hfd List.not_mem_nil, rfl, ?_, ?_, ?_⟩
  · intro fd c hc
    cases hc
  · intro fd rest hpc
    cases hpc
  · intro fd c hc
    cases hc

section Runs

variable {sockfd : Nat} {s t : World × State}

theorem orderly_of_reachable (h : Reachable (step sockfd) (World.init, State.init) s) :
    Orderly sockfd s.1 s.2 :=
  h.invariant (fun s => Orderly sockfd s.1 s.2) (orderly_init sockfd)
    fun _ _ _ _ hs hstep => hs.step hstep

/-- What has come on a connection and what has gone out on it is what a relay does, with
nothing held back unless the loop is about to send it. -/
theorem relays_reports (h : Reachable (step sockfd) (World.init, State.init) s) {fd : Nat}
    {c : Conn} (hconn : s.1.conns fd = some c) : Makes c.log (owed s.2 fd) :=
  (orderly_of_reachable h).logs fd c hconn

theorem shut_kept {event : Event} {fd : Nat} {c : Conn} (h : Orderly sockfd s.1 s.2)
    (hconn : s.1.conns fd = some c) (hshut : c.shut = true)
    (hstep : step sockfd s event = some t) : t.1.conns fd = some c := by
  have hapart : ∀ {own : Nat}, own ∈ due s.2.pc → fd ≠ own := by
    rintro own hown rfl
    rw [h.not_shut hown hconn] at hshut
    cases hshut
  have hstep := step_sound hstep
  generalize t.1 = w' at hstep ⊢
  generalize t.2 = s' at hstep
  cases hstep with
  | connected | reported | exited | ended | unsent => exact hconn
  | accepted hpc hbacklog hne hfree =>
    rw [setConn_conns_of_ne, hconn]
    rintro rfl
    rw [hconn] at hfree
    cases hfree
  | added hpc | removed hpc | shutDown hpc =>
    rw [alter_conns_of_ne (hapart (by rw [hpc]; exact List.mem_cons_self ..))]
    exact hconn
  | received hpc | sent hpc =>
    rw [setConn_conns_of_ne (hapart (by rw [hpc]; exact List.mem_cons_self ..))]
    exact hconn
  | closed hpc =>
    have hne := hapart (by rw [hpc]; exact List.mem_cons_self ..)
    exact (Function.update_of_ne hne ..).trans hconn

/-- A connection that has been shut down is never closed: whatever comes, its descriptor stays
taken, and nothing is done on it any more. -/
theorem shut_never_closed (h : Reachable (step sockfd) (World.init, State.init) s) {fd : Nat}
    {c : Conn} (hconn : s.1.conns fd = some c) (hshut : c.shut = true)
    (h' : Reachable (step sockfd) s t) : t.1.conns fd = some c := by
  apply h'.invariant (fun t => t.1.conns fd = some c) hconn
  intro t event u hreach ht hstep
  exact shut_kept (orderly_of_reachable (h.trans hreach)) ht hshut hstep

end Runs

def oneClient : List Event :=
  [.outside (), .call (.reports [⟨3, false⟩]), .call (.ret 5), .call (.ret 0),
    .call (.reports [⟨5, false⟩]), .call (.received 3 [7, 8, 9]), .call (.ret 2),
    .call (.reports [⟨5, false⟩]), .call (.received 0 []), .call (.ret 0), .call (.ret 0)]

theorem relays_reports_sending : ∃ s c, Reachable (step 3) (World.init, State.init) s ∧
    s.1.conns 5 = some c ∧ c.log = [.took [7, 8, 9]] ∧ owed s.2 5 = some [7, 8, 9] ∧
    Makes c.log (owed s.2 5) := by
  have hview : (run (step 3) (World.init, State.init) (oneClient.take 6)).map
      (fun s => (s.1.conns 5, owed s.2 5)) =
      some (some ⟨true, false, [.took [7, 8, 9]]⟩, some [7, 8, 9]) := by decide +kernel
  rcases Reachable.of_view hview with ⟨s, hreach, hseen⟩
  rw [Prod.mk.injEq] at hseen
  exact ⟨s, _, hreach, hseen.1, rfl, hseen.2, relays_reports hreach hseen.1⟩

theorem shut_never_closed_next_client : ∃ s t, Reachable (step 3) (World.init, State.init) s ∧
    s.1.conns 5 = some ⟨false, true, [.took [7, 8, 9], .gave [7, 8]]⟩ ∧
    Reachable (step 3) s t ∧ t.2.pc = .adding 6 [] ∧
    t.1.conns 5 = some ⟨false, true, [.took [7, 8, 9], .gave [7, 8]]⟩ := by
  have hview : (run (step 3) (World.init, State.init) oneClient).map
      (fun s => (s.1.conns 5, (run (step 3) s
        [.outside (), .call (.reports [⟨3, false⟩]), .call (.ret 6)]).map fun t => t.2.pc)) =
      some (some ⟨false, true, [.took [7, 8, 9], .gave [7, 8]]⟩, some (.adding 6 [])) := by
    decide +kernel
  rcases Reachable.of_view hview with ⟨s, hreach, hseen⟩
  rw [Prod.mk.injEq] at hseen
  rcases Reachable.of_view hseen.2 with ⟨t, hlater, hpc⟩
  exact ⟨s, t, hreach, hseen.1, hlater, hpc, shut_never_closed hreach hseen.1 rfl hlater⟩

end IoWrapper.EpollDemo.Connections
