import IoWrapper.EchoV1.Records

/-! The registered files of the ring with `-f`. A slot is filled for the first connection
under its descriptor, and the mark in `registered_files` stays when the connection is
closed; so the slot of a descriptor that has been closed holds a file that is no longer
open under it. -/
namespace IoWrapper.EchoV1.FixedFiles
open Core.Machine Core.Traffic Server Records

def Serves (entries : List Sqe) (fd : Nat) : Prop :=
  ∃ sqe ∈ entries, sqe.op.type ≠ .accept ∧ sqe.op.fd = fd

/-- The slots, where the given descriptors are those of connections that are served. -/
structure Slotted (u : Setup) (s : State) (served : Nat → Prop) : Prop where
  fdFiles : ∀ fd f, s.fds fd = some f → f < s.files
  slotFiles : ∀ fd f, s.slots fd = some f → f < s.files
  stale : ∀ fd ∈ s.closed, s.registeredFiles fd ≠ -1 ∧
    ∃ f, s.slots fd = some f ∧ s.fds fd ≠ some f
  current : ∀ fd ∉ s.closed, served fd → s.registeredFiles fd ≠ -1 ∧ s.slots fd = s.fds fd
  blank : ∀ fd ∉ s.closed, fd ≠ u.sockListenFd → ¬ served fd → s.registeredFiles fd = -1

section Serves

variable {entries entries' : List Sqe} {sqe : Sqe} {fd : Nat}

theorem serves_cons :
    Serves (sqe :: entries) fd ↔ (sqe.op.type ≠ .accept ∧ sqe.op.fd = fd) ∨ Serves entries fd := by
  simp [Serves]

theorem Serves.perm (hperm : entries.Perm entries') : Serves entries fd ↔ Serves entries' fd := by
  simp only [Serves, hperm.mem_iff]

theorem Serves.held {s : State} (h : Serves s.ring.pending fd) : fd ∈ held s := by
  rcases h with ⟨sqe, hsqe, -, rfl⟩
  exact List.mem_append_left _ (List.mem_map_of_mem hsqe)

theorem serves_queue {u : Setup} {s : State} {connI : Nat} (op : Op) :
    Serves (s.queue u connI op).ring.pending fd ↔
      (op.type ≠ .accept ∧ op.fd = fd) ∨ Serves s.ring.pending fd :=
  (Serves.perm (IoRing.pending_push s.ring _)).trans serves_cons

end Serves

section Moves

variable {u : Setup} {s : State} {served served' : Nat → Prop}

theorem Slotted.congr (h : Slotted u s served) (hsame : ∀ fd, served' fd ↔ served fd) :
    Slotted u s served' := by
  have heq : served' = served := funext fun fd => propext (hsame fd)
  rw [heq]
  exact h

theorem Slotted.queue {connI : Nat} {op : Op} (h : Slotted u s served) :
    Slotted u (s.queue u connI op) served :=
  ⟨h.fdFiles, h.slotFiles, h.stale, h.current, h.blank⟩

theorem Slotted.register {fd : Nat} (h : Slotted u s served) (hblank : s.registeredFiles fd = -1) :
    Slotted u (s.register fd) (fun other => other = fd ∨ served other) := by
  have hfirst : ∀ other ∈ s.closed, other ≠ fd := by
    rintro other hother rfl
    exact (h.stale other hother).1 hblank
  constructor
  case fdFiles => exact h.fdFiles
  case slotFiles =>
    intro other f hf
    by_cases heq : other = fd
    · simp only [State.register, heq, Function.update_self] at hf
      exact h.fdFiles _ f hf
    · simp only [State.register, Function.update_of_ne heq] at hf
      exact h.slotFiles other f hf
  case stale =>
    intro other hother
    simp only [State.register, Function.update_of_ne (hfirst other hother)]
    exact h.stale other hother
  case current =>
    intro other hother hserved
    by_cases heq : other = fd
    · simp only [State.register, heq, Function.update_self]
      exact ⟨by omega, trivial⟩
    · simp only [State.register, Function.update_of_ne heq]
      exact h.current other hother (hserved.resolve_left heq)
  case blank =>
    intro other hother hlisten hnone
    rw [not_or] at hnone
    simp only [State.register, Function.update_of_ne hnone.1]
    exact h.blank other hother hlisten hnone.2

theorem Slotted.keep {fd : Nat} (h : Slotted u s served) (hset : s.registeredFiles fd ≠ -1)
    (hlisten : fd ≠ u.sockListenFd) (hfree : ¬ served fd) :
    Slotted u s (fun other => other = fd ∨ served other) := by
  have hagain : fd ∈ s.closed := by
    by_contra hfirst
    exact hset (h.blank fd hfirst hlisten hfree)
  refine ⟨h.fdFiles, h.slotFiles, h.stale, ?_, ?_⟩
  · intro other hother hserved
    have hne : other ≠ fd := by
      rintro rfl
      exact hother hagain
    exact h.current other hother (hserved.resolve_left hne)
  · intro other hother hne hnone
    exact h.blank other hother hne fun hserved => hnone (Or.inr hserved)

theorem Slotted.registered {mid : State} {fd : Int} (h : Slotted u s served)
    (hfixed : u.registerfiles = true) (hlisten : fd.toNat ≠ u.sockListenFd)
    (hfree : ¬ served fd.toNat) (hmid : Registered u s fd mid) :
    Slotted u mid (fun other => other = fd.toNat ∨ served other) := by
  cases hmid with
  | unused hunused =>
    rw [hfixed] at hunused
    cases hunused
  | filled _ _ _ hblank => exact h.register hblank
  | kept _ _ _ hset => exact h.keep hset hlisten hfree

theorem Slotted.close {fd : Nat} (h : Slotted u s served) (hserved : served fd)
    (hopen : s.fds fd ≠ none) (hkeep : ∀ other, other ≠ fd → (served' other ↔ served other)) :
    Slotted u (s.close fd) served' := by
  have hmem : ∀ {other}, other ∉ (s.close fd).closed → other ∉ s.closed ∧ other ≠ fd := by
    intro other hother
    simpa [State.close] using hother
  constructor
  case fdFiles =>
    intro other f hf
    by_cases heq : other = fd
    · simp [State.close, heq] at hf
    · simp only [State.close, Function.update_of_ne heq] at hf
      exact h.fdFiles other f hf
  case slotFiles => exact h.slotFiles
  case stale =>
    intro other hother
    by_cases heq : other = fd
    · simp only [State.close, heq, Function.update_self]
      by_cases hagain : fd ∈ s.closed
      · rcases h.stale fd hagain with ⟨hset, f, hslot, -⟩
        exact ⟨hset, f, hslot, by simp⟩
      · rcases h.current fd hagain hserved with ⟨hset, hslot⟩
        rcases Option.ne_none_iff_exists'.mp hopen with ⟨f, hf⟩
        exact ⟨hset, f, hslot.trans hf, by simp⟩
    · have hbefore : other ∈ s.closed := by simpa [State.close, heq] using hother
      simp only [State.close, Function.update_of_ne heq]
      exact h.stale other hbefore
  case current =>
    intro other hother hserved'
    rcases hmem hother with ⟨hfirst, heq⟩
    simp only [State.close, Function.update_of_ne heq]
    exact h.current other hfirst ((hkeep other heq).mp hserved')
  case blank =>
    intro other hother hlisten hnone
    rcases hmem hother with ⟨hfirst, heq⟩
    exact h.blank other hfirst hlisten fun hserved' => hnone ((hkeep other heq).mpr hserved')

theorem Slotted.completed {cqe : Cqe} (i : Nat) (h : Slotted u s served)
    (hpossible : s.Possible cqe) (hopen : ∀ fd, served fd → s.fds fd ≠ none) :
    Slotted u (s.completed i cqe) served := by
  have hfree : ∀ fd ∈ opened cqe, s.fds fd = none := hpossible.2.2
  constructor
  case fdFiles =>
    intro fd f hf
    simp only [State.completed] at hf ⊢
    split at hf
    · rename_i hin
      cases hf
      have := List.length_pos_of_mem hin
      omega
    · have := h.fdFiles fd f hf
      omega
  case slotFiles =>
    intro fd f hf
    exact Nat.lt_of_lt_of_le (h.slotFiles fd f hf) (Nat.le_add_right _ _)
  case stale =>
    intro fd hfd
    rcases h.stale fd hfd with ⟨hset, f, hslot, hgone⟩
    refine ⟨hset, f, hslot, ?_⟩
    simp only [State.completed]
    split
    · have := h.slotFiles fd f hslot
      intro heq
      cases heq
      omega
    · exact hgone
  case current =>
    intro fd hfd hserved
    rcases h.current fd hfd hserved with ⟨hset, hslot⟩
    refine ⟨hset, hslot.trans ?_⟩
    simp only [State.completed]
    rw [if_neg fun hin => hopen fd hserved (hfree fd hin)]
  case blank => exact h.blank

end Moves

section Runs

variable {u : Setup} {s t : State} {cqe : Cqe}

theorem Slotted.answered {rest : List Cqe} (hfixed : u.registerfiles = true)
    (h : Slotted u s (Serves s.ring.pending)) (hwired : Wired u s) (hbatch : s.batch = cqe :: rest)
    (ht : Reaction u { s with batch := rest } cqe t) : Slotted u t (Serves t.ring.pending) := by
  have hhead := hwired.head hbatch
  have hseen : Slotted u ({ s with batch := rest } : State).cqeSeen (Serves s.ring.pending) :=
    ⟨h.fdFiles, h.slotFiles, h.stale, h.current, h.blank⟩
  have hserves : ∀ fd, Serves s.ring.pending fd ↔ (cqe.entry.op.type ≠ .accept ∧
      cqe.entry.op.fd = fd) ∨ Serves s.cqeSeen.ring.pending fd := by
    rcases hwired.batch with ⟨more, hmore⟩
    rw [hbatch, List.cons_append] at hmore
    exact fun fd => (Serves.perm (IoRing.pending_seen hmore.symm)).trans serves_cons
  cases ht with
  | accepted htype hlisten hpos hlt hregistered =>
    have hreturned := hhead.returned cqe.res.toNat (by
      rw [opened_of_accept htype hpos]
      exact List.mem_singleton_self _)
    have hfree : ¬ Serves s.ring.pending cqe.res.toNat := by
      rw [hserves]
      rintro (⟨hother, -⟩ | hserved)
      · exact hother htype
      · exact hreturned.1 hserved.held
    have hmid := hseen.registered hfixed (by rw [← hlisten]; exact hreturned.2.1) hfree hregistered
    refine hmid.queue.queue.congr fun fd => ?_
    rw [serves_queue, serves_queue, registered_ring hregistered, hserves]
    simp [htype, State.cqeSeen, eq_comm]
  | hungUp htype =>
    apply hseen.close ((hserves _).mpr (Or.inl ⟨htype, rfl⟩)) hhead.fdOpen
    intro other hne
    rw [hserves, or_iff_right fun hsame => hne hsame.2.symm]
    rfl
  | continued op htype hop hfd hlt =>
    refine hseen.queue.congr fun fd => ?_
    rw [serves_queue, hserves, hfd]
    exact or_congr_left (and_congr_left fun _ => iff_of_true hop htype)

theorem Slotted.step {event : Event} (hfixed : u.registerfiles = true)
    (h : Slotted u s (Serves s.ring.pending)) (hwired : Wired u s)
    (hstep : step u s event = some t) : Slotted u t (Serves t.ring.pending) := by
  cases step_sound hstep with
  | @submitted count hpc =>
    have hsame : Slotted u { s with ring := s.ring.submit count, pc := .peeking }
        (Serves s.ring.pending) := ⟨h.fdFiles, h.slotFiles, h.stale, h.current, h.blank⟩
    exact hsame.congr fun fd => Serves.perm (IoRing.pending_submit s.ring count)
  | failed hpc => exact ⟨h.fdFiles, h.slotFiles, h.stale, h.current, h.blank⟩
  | peeked hpc => exact ⟨h.fdFiles, h.slotFiles, h.stale, h.current, h.blank⟩
  | answered hpc hbatch hanswered =>
    exact h.answered hfixed hwired hbatch (hwired.reaction hbatch hanswered)
  | stopped hpc hbatch hstop => exact ⟨h.fdFiles, h.slotFiles, h.stale, h.current, h.blank⟩
  | ended hpc hbatch => exact ⟨h.fdFiles, h.slotFiles, h.stale, h.current, h.blank⟩
  | @completed i cqe hsqe hpossible =>
    have hopened := h.completed i hpossible fun fd hserved => hwired.isOpen fd hserved.held
    exact hopened.congr fun fd => Serves.perm (IoRing.pending_complete hsqe)

theorem blank_fds (u : Setup) (fd f : Nat) (h : (State.blank u).fds fd = some f) : f < 1 := by
  unfold State.blank at h
  by_cases heq : fd = u.sockListenFd
  · simp only [heq, Function.update_self, Option.some.injEq] at h
    omega
  · simp [Function.update_of_ne heq] at h

theorem slotted_init (hfixed : u.registerfiles = true) :
    Slotted u (State.init u) (Serves (State.init u).ring.pending) := by
  have hempty : ∀ fd, ¬ Serves (State.listening u).ring.pending fd := by
    intro fd
    rw [(listening_ring u).1]
    simp [Serves]
  have hlistening : Slotted u (State.listening u) (Serves (State.listening u).ring.pending) := by
    rw [State.listening, if_pos hfixed] at hempty ⊢
    constructor
    case fdFiles => exact blank_fds u
    case slotFiles =>
      intro fd f hf
      by_cases heq : fd = u.sockListenFd
      · simp only [State.register, heq, Function.update_self] at hf
        exact blank_fds u _ f hf
      · simp only [State.register, Function.update_of_ne heq] at hf
        cases hf
    case stale => exact fun fd hfd => absurd hfd List.not_mem_nil
    case current => exact fun fd _ hserved => absurd hserved (hempty fd)
    case blank =>
      intro fd _ hne _
      exact Function.update_of_ne hne ..
  unfold State.init
  split
  · rename_i s hs
    rcases addAccept_eq_ok hs with ⟨-, -, rfl⟩
    refine hlistening.queue.congr fun fd => ?_
    rw [serves_queue]
    simp
  · exact ⟨hlistening.fdFiles, hlistening.slotFiles, hlistening.stale, hlistening.current,
      hlistening.blank⟩

theorem slotted_of_reachable (hfixed : u.registerfiles = true)
    (h : Reachable (step u) (State.init u) s) : Slotted u s (Serves s.ring.pending) :=
  h.invariant (fun s => Slotted u s (Serves s.ring.pending)) (slotted_init hfixed)
    fun _ _ _ hreach hs hstep => hs.step hfixed (wired_of_reachable hreach) hstep

/-- A receive or a send goes to the connection that is open under its descriptor exactly
when no earlier connection under the descriptor has been closed. -/
theorem slot_holds_connection_iff (hfixed : u.registerfiles = true)
    (h : Reachable (step u) (State.init u) s) {sqe : Sqe} (hsqe : sqe ∈ s.ring.sq)
    (htype : sqe.op.type ≠ .accept) :
    s.slots sqe.op.fd = s.fds sqe.op.fd ↔ sqe.op.fd ∉ s.closed := by
  have hslotted := slotted_of_reachable hfixed h
  constructor
  · intro hsame hclosed
    rcases hslotted.stale _ hclosed with ⟨-, f, hslot, hgone⟩
    exact hgone (hsame.symm.trans hslot)
  · intro hfirst
    exact (hslotted.current _ hfirst ⟨sqe, IoRing.mem_pending_of_sq hsqe, htype, rfl⟩).2

end Runs

theorem oneConnect_spec :
    (run (step fixedSetup) (State.init fixedSetup) oneConnect).map
      (fun s => (s.ring.sq, s.closed)) =
      some ([⟨.accept 3, true, 3⟩, ⟨.recv 5 5 2046, true, 5⟩], []) := by
  decide +kernel

theorem slot_holds_first_connection :
    ∃ s, Reachable (step fixedSetup) (State.init fixedSetup) s ∧
      (⟨.recv 5 5 2046, true, 5⟩ : Sqe) ∈ s.ring.sq ∧ s.slots 5 = s.fds 5 := by
  rcases Reachable.of_view oneConnect_spec with ⟨s, hreach, hs⟩
  simp only [Prod.mk.injEq] at hs
  have hsqe : (⟨.recv 5 5 2046, true, 5⟩ : Sqe) ∈ s.ring.sq := by
    rw [hs.1]
    simp
  exact ⟨s, hreach, hsqe, (slot_holds_connection_iff rfl hreach hsqe (by decide)).mpr
    (by rw [hs.2]; exact List.not_mem_nil)⟩

/-- The second connection under a descriptor: its receive goes to the file of the first one,
which has been closed. -/
theorem slot_holds_closed_connection :
    ∃ s, Reachable (step fixedSetup) (State.init fixedSetup) s ∧
      (⟨.recv 5 5 2046, true, 5⟩ : Sqe) ∈ s.ring.sq ∧ s.slots 5 = some 1 ∧ s.fds 5 = some 2 := by
  have hspec : (run (step fixedSetup) (State.init fixedSetup)
      (oneReuse ++ ([.handle 1] : List Event))).map (fun s => (s.ring.sq, s.slots 5, s.fds 5)) =
      some ([⟨.accept 3, true, 3⟩, ⟨.recv 5 5 2046, true, 5⟩], some 1, some 2) := by
    decide +kernel
  rcases Reachable.of_view hspec with ⟨s, hreach, hs⟩
  simp only [Prod.mk.injEq] at hs
  refine ⟨s, hreach, ?_, hs.2.1, hs.2.2⟩
  rw [hs.1]
  simp

end IoWrapper.EchoV1.FixedFiles
