import IoWrapper.EchoV1.Records

/-! No descriptor is forgotten: as long as the server runs, each open one has an operation
pending on it, or is the result of an accept that has not been processed. -/
namespace IoWrapper.EchoV1.Pending
open Core.Machine Core.Traffic Server Records

def Stopped (s : State) : Prop := ∃ stop, s.pc = .stopped stop

def Covered (s : State) : Prop := ∀ fd, s.fds fd ≠ none → fd ∈ held s

section Moves

variable {u : Setup} {s t : State} {cqe : Cqe}

theorem held_front {rest : List Cqe} {fd : Nat} (hwired : Wired u s)
    (hbatch : s.batch = cqe :: rest) (h : fd ∈ held s) :
    fd = cqe.entry.op.fd ∨ fd ∈ opened cqe ∨ fd ∈ held s.cqeSeen := by
  rcases hwired.batch with ⟨more, hmore⟩
  rw [hbatch, List.cons_append] at hmore
  rcases List.mem_cons.mp ((held_seen hmore.symm).mem_iff.mp h) with hfd | hfd
  · exact Or.inl hfd
  · exact Or.inr (List.mem_append.mp hfd)

theorem Covered.answered {rest : List Cqe} (h : Covered s) (hwired : Wired u s)
    (hbatch : s.batch = cqe :: rest) (ht : Reaction u { s with batch := rest } cqe t) :
    Covered t := by
  intro fd hfd
  cases ht with
  | accepted htype hlisten hpos hlt hregistered =>
    rcases held_registered hregistered with ⟨hheld, hfds⟩
    rw [queue_fds, queue_fds, hfds] at hfd
    rw [(held_queue _ _).mem_iff, List.mem_cons, (held_queue _ _).mem_iff, List.mem_cons, hheld]
    rcases held_front hwired hbatch (h fd hfd) with hfront | hopened | hrest
    · exact Or.inr (Or.inl (hfront.trans hlisten))
    · rw [opened_of_accept htype hpos] at hopened
      exact Or.inl (List.mem_singleton.mp hopened)
    · exact Or.inr (Or.inr hrest)
  | hungUp htype =>
    have hne : fd ≠ cqe.entry.op.fd := by
      rintro rfl
      exact hfd (Function.update_self ..)
    have hopen : s.fds fd ≠ none := (Function.update_of_ne hne ..).symm.trans_ne hfd
    rcases held_front hwired hbatch (h fd hopen) with hfront | hopened | hrest
    · exact absurd hfront hne
    · unfold opened at hopened
      rw [if_neg fun hboth => htype hboth.1] at hopened
      cases hopened
    · exact hrest
  | continued op htype hop hsame hlt =>
    rw [(held_queue _ _).mem_iff, List.mem_cons]
    rcases held_front hwired hbatch (h fd hfd) with hfront | hopened | hrest
    · exact Or.inl (hfront.trans hsame.symm)
    · unfold opened at hopened
      rw [if_neg fun hboth => htype hboth.1] at hopened
      cases hopened
    · exact Or.inr hrest

theorem Covered.step {event : Event} (h : Covered s) (hwired : Wired u s)
    (hstep : step u s event = some t) : Stopped t ∨ Covered t := by
  cases step_sound hstep with
  | @submitted count hpc =>
    exact Or.inr fun fd hfd => (held_submit count).mem_iff.mpr (h fd hfd)
  | failed => exact Or.inl ⟨_, rfl⟩
  | answered hpc hbatch hanswered =>
    exact Or.inr (h.answered hwired hbatch (hwired.reaction hbatch hanswered))
  | stopped => exact Or.inl ⟨_, rfl⟩
  | @completed i cqe hsqe hpossible =>
    right
    intro fd hfd
    rw [(held_completed hsqe).mem_iff, List.mem_append]
    by_cases hopened : fd ∈ opened cqe
    · exact Or.inl hopened
    · simp only [State.completed, if_neg hopened] at hfd
      exact Or.inr (h fd hfd)
  | peeked | ended => exact Or.inr h

theorem Stopped.step {event : Event} (h : Stopped s) (hstep : step u s event = some t) :
    Stopped t := by
  rcases h with ⟨stop, hstop⟩
  cases step_sound hstep with
  | completed => exact ⟨stop, hstop⟩
  | submitted hpc | failed hpc | peeked hpc | answered hpc | stopped hpc | ended hpc =>
    rw [hstop] at hpc
    cases hpc

end Moves

theorem covered_init (u : Setup) : Stopped (State.init u) ∨ Covered (State.init u) := by
  unfold State.init
  split
  · rename_i s hs
    rcases addAccept_eq_ok hs with ⟨-, -, rfl⟩
    right
    intro fd hfd
    rw [(held_queue _ _).mem_iff, List.mem_cons]
    left
    by_contra hne
    apply hfd
    rw [queue_fds]
    have hblank : (State.blank u).fds fd = none := by
      have hother : fd ≠ u.sockListenFd := hne
      simp [State.blank, hother]
    unfold State.listening
    split <;> exact hblank
  · exact Or.inl ⟨_, rfl⟩

/-- As long as the server runs, a descriptor is open just if an operation on it is pending or
an accept has returned it, and then there is one of these only. -/
theorem open_iff_held {u : Setup} {s : State} (h : Reachable (step u) (State.init u) s)
    (hrunning : ∀ stop, s.pc ≠ .stopped stop) :
    (held s).Nodup ∧ ∀ fd, s.fds fd ≠ none ↔ fd ∈ held s := by
  have hwired := wired_of_reachable h
  have hcovered : Stopped s ∨ Covered s := by
    apply h.invariant (fun s => Stopped s ∨ Covered s) (covered_init u)
    intro s event t hreach hs hstep
    rcases hs with hstopped | hs
    · exact Or.inl (hstopped.step hstep)
    · exact hs.step (wired_of_reachable hreach) hstep
  rcases hcovered with ⟨stop, hstop⟩ | hcovered
  · exact absurd hstop (hrunning stop)
  · exact ⟨hwired.nodup, fun fd => ⟨hcovered fd, hwired.isOpen fd⟩⟩

theorem open_iff_held_one_connect : ∃ s, Reachable (step fixedSetup) (State.init fixedSetup) s ∧
    s.pc = .submitting ∧ held s = [3, 5] ∧ (held s).Nodup ∧
    ∀ fd, s.fds fd ≠ none ↔ fd ∈ held s := by
  have hview : (run (step fixedSetup) (State.init fixedSetup) oneConnect).map
      (fun s => (s.pc, held s)) = some (.submitting, [3, 5]) := by decide +kernel
  rcases Reachable.of_view hview with ⟨s, hreach, hseen⟩
  rw [Prod.mk.injEq] at hseen
  exact ⟨s, hreach, hseen.1, hseen.2, open_iff_held hreach (by simp [hseen.1])⟩

end IoWrapper.EchoV1.Pending
