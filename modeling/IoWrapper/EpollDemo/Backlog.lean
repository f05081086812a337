import Mathlib.Data.List.Nodup
import IoWrapper.EpollDemo.Connections

/-! Clients that are not accepted. Several of them can come before one report of the listening
socket, which is answered with one `accept`; those that are left wait for reports of others,
and their number never gets smaller. -/
namespace IoWrapper.EpollDemo.Backlog
open Core.Machine Core.Calls Server Connections

/-- The event is answered with `accept`. -/
def accepts (sockfd : Nat) (event : Report) : Bool := event.fd == sockfd && !event.broken

def dueAccepts (sockfd : Nat) : Pc → Nat
  | .waiting | .exited _ => 0
  | .accepting rest => rest.countP (accepts sockfd) + 1
  | .adding _ rest | .receiving _ rest | .removing _ rest | .shuttingDown _ rest
  | .sending _ _ rest | .closing _ rest => rest.countP (accepts sockfd)

/-- The clients in the backlog beyond those that an event will let in. -/
def Left (sockfd count : Nat) (w : World) (s : State) : Prop :=
  count + dueAccepts sockfd s.pc + w.ready.toNat ≤ w.backlog

section Steps

variable {sockfd count : Nat} {w : World} {s : State}

theorem dueAccepts_next (events : List Report) :
    dueAccepts sockfd (next sockfd events) = events.countP (accepts sockfd) := by
  have hnext := next_spec sockfd events
  generalize next sockfd events = pc at hnext ⊢
  cases hnext with
  | done => rfl
  | broken event rest hbroken => simp [dueAccepts, accepts, hbroken]
  | listener event rest hbroken hfd => simp [dueAccepts, accepts, hbroken, hfd]
  | conn event rest hfd => simp [dueAccepts, accepts, hfd]

theorem Left.report {events : List Report} (h : Left sockfd count w s)
    (hlistener : w.conns sockfd = none) (hpc : s.pc = .waiting)
    (hnodup : (events.map Report.fd).Nodup)
    (hreports : ∀ event ∈ events, w.Reports sockfd event) :
    Left sockfd count (w.report sockfd events) { s with pc := next sockfd events } := by
  have hone : events.countP (accepts sockfd) ≤ 1 := by
    have hcount := List.nodup_iff_count_le_one.mp hnodup sockfd
    rw [List.count, List.countP_map] at hcount
    refine Nat.le_trans (List.countP_mono_left fun event _ haccepts => ?_) hcount
    exact (Bool.and_eq_true_iff.mp haccepts).1
  have hdue : dueAccepts sockfd (next sockfd events) = _ := dueAccepts_next events
  unfold Left at h ⊢
  rw [hpc] at h
  rw [dueAccepts] at h
  simp only [World.report]
  by_cases hnone : events.countP (accepts sockfd) = 0
  · have hready : (w.ready && !(events.map Report.fd).contains sockfd).toNat ≤ w.ready.toNat := by
      cases w.ready <;> simp [Bool.toNat_le]
    omega
  · rcases List.countP_pos_iff.mp (Nat.pos_of_ne_zero hnone) with ⟨event, hevent, haccepts⟩
    rcases Bool.and_eq_true_iff.mp haccepts with ⟨hfd, hbroken⟩
    have hfd := beq_iff_eq.mp hfd
    have hready : w.ready = true := by
      rcases hreports event hevent with ⟨-, -, hready | hbad⟩ | ⟨c, hc, -⟩
      · exact hready
      · simp [hbad] at hbroken
      · rw [hfd, hlistener] at hc
        cases hc
    have hcontains : (events.map Report.fd).contains sockfd = true := by
      rw [List.contains_iff_mem, ← hfd]
      exact List.mem_map_of_mem hevent
    rw [hready, hcontains]
    rw [hready] at h
    simp only [Bool.toNat_true, Bool.not_true, Bool.and_false, Bool.toNat_false] at h ⊢
    omega

theorem Left.move {w' : World} {s' : State} (h : Left sockfd count w s)
    (hdue : dueAccepts sockfd s'.pc ≤ dueAccepts sockfd s.pc) (hbacklog : w'.backlog = w.backlog)
    (hready : w'.ready = w.ready) : Left sockfd count w' s' := by
  unfold Left at h ⊢
  rw [hbacklog, hready]
  omega

theorem Left.step {event : Event} {t : World × State} (h : Left sockfd count w s)
    (hlistener : w.conns sockfd = none) (hstep : step sockfd (w, s) event = some t) :
    Left sockfd count t.1 t.2 := by
  have hstep := step_sound hstep
  generalize t.1 = w' at hstep ⊢
  generalize t.2 = s' at hstep ⊢
  cases hstep with
  | connected =>
    have hle := Bool.toNat_le w.ready
    unfold Left at h ⊢
    simp only [Bool.toNat_true]
    omega
  | reported hpc hnodup hreports => exact h.report hlistener hpc hnodup hreports
  | exited => exact h.move (Nat.zero_le _) rfl rfl
  | @accepted rest res hpc hbacklog =>
    unfold Left at h ⊢
    rw [hpc, dueAccepts] at h
    simp only [World.setConn, dueAccepts]
    omega
  | added hpc | shutDown hpc | closed hpc =>
    refine h.move ?_ rfl rfl
    rw [hpc, dueAccepts_next]
    exact Nat.le_refl _
  | received hpc | ended hpc | removed hpc | unsent hpc =>
    refine h.move ?_ rfl rfl
    rw [hpc]
    exact Nat.le_refl _
  | sent hpc =>
    refine h.move ?_ rfl rfl
    rw [hpc]
    dsimp only
    split
    · exact Nat.le_refl _
    · rw [dueAccepts_next]
      exact Nat.le_refl _

end Steps

/-- Once the loop waits with clients in the backlog and no edge to report, there are never fewer
of them: each later report lets in no more clients than it is for. -/
theorem backlog_never_shrinks {sockfd : Nat} {s t : World × State}
    (h : Reachable (step sockfd) (World.init, State.init) s) (hpc : s.2.pc = .waiting)
    (hready : s.1.ready = false) (h' : Reachable (step sockfd) s t) :
    s.1.backlog ≤ t.1.backlog := by
  have hleft : Left sockfd s.1.backlog t.1 t.2 := by
    apply h'.invariant fun t => Left sockfd s.1.backlog t.1 t.2
    · unfold Left
      rw [hpc, hready]
      exact Nat.le_refl _
    · intro t event u hreach ht hstep
      exact ht.step (orderly_of_reachable (h.trans hreach)).listener hstep
  unfold Left at hleft
  omega

theorem backlog_never_shrinks_two_clients : ∃ s t,
    Reachable (step 3) (World.init, State.init) s ∧ s.2.pc = .waiting ∧ s.1.ready = false ∧
    s.1.backlog = 1 ∧ Reachable (step 3) s t ∧ t.2.pc = .adding 6 [] ∧ 1 ≤ t.1.backlog := by
  have hview : (run (step 3) (World.init, State.init)
      [.outside (), .outside (), .call (.reports [⟨3, false⟩]), .call (.ret 5), .call (.ret 0)]).map
      (fun s => (s.2.pc, s.1.ready, s.1.backlog, (run (step 3) s
        [.outside (), .call (.reports [⟨3, false⟩]), .call (.ret 6)]).map fun t => t.2.pc)) =
      some (.waiting, false, 1, some (.adding 6 [])) := by decide +kernel
  rcases Reachable.of_view hview with ⟨s, hreach, hseen⟩
  simp only [Prod.mk.injEq] at hseen
  rcases hseen with ⟨hpc, hready, hbacklog, hafter⟩
  rcases Reachable.of_view hafter with ⟨t, hlater, hadding⟩
  have hle := backlog_never_shrinks hreach hpc hready hlater
  rw [hbacklog] at hle
  exact ⟨s, t, hreach, hpc, hready, hbacklog, hlater, hadding, hle⟩

end IoWrapper.EpollDemo.Backlog
