import IoWrapper.EchoV1.Server

/-! Every pending operation has the record of its descriptor in `conns` to itself. A
descriptor is held by an operation on it, or by the completed accept that returned it, and
what holds a descriptor keeps it open; so a completion finds its record as its operation
left it, although records are overwritten and descriptors reused. -/
namespace IoWrapper.EchoV1.Records
open Core.Machine Core.Traffic Server

def held (s : State) : List Nat :=
  s.ring.pending.map (fun sqe => sqe.op.fd) ++ s.ring.cq.flatMap opened

structure Wired (u : Setup) (s : State) : Prop where
  batch : s.batch <+: s.ring.cq
  nodup : (held s).Nodup
  isOpen : ∀ fd ∈ held s, s.fds fd ≠ none
  userData : ∀ sqe ∈ s.ring.pending, sqe.userData = sqe.op.fd
  record : ∀ sqe ∈ s.ring.pending, s.conns sqe.op.fd = ⟨sqe.op.fd, sqe.op.type⟩
  listens : ∀ sqe ∈ s.ring.pending, sqe.op.type = .accept → sqe.op.fd = u.sockListenFd
  inBounds : ∀ sqe ∈ s.ring.pending, sqe.op.fd < u.maxConnections

section Moves

variable {u : Setup} {s : State} {cqe : Cqe}

theorem held_queue (op : Op) (connI : Nat) :
    (held (s.queue u connI op)).Perm (op.fd :: held s) :=
  ((IoRing.pending_push s.ring _).map _).append_right _

theorem held_seen {rest : List Cqe} (h : s.ring.cq = cqe :: rest) :
    (held s).Perm (cqe.entry.op.fd :: (opened cqe ++ held s.cqeSeen)) := by
  have hpending := (IoRing.pending_seen h).map fun sqe => sqe.op.fd
  have hopened : s.ring.cq.flatMap opened = opened cqe ++ s.cqeSeen.ring.cq.flatMap opened := by
    simp [State.cqeSeen, h]
  unfold held
  rw [hopened]
  exact (hpending.append_right _).trans ((List.perm_append_comm_assoc _ _ _).cons _)

theorem held_completed {i : Nat} (h : s.ring.inflight[i]? = some cqe.entry) :
    (held (s.completed i cqe)).Perm (opened cqe ++ held s) := by
  have hcq : (s.completed i cqe).ring.cq.flatMap opened =
      s.ring.cq.flatMap opened ++ opened cqe := by
    simp [State.completed]
  unfold held
  rw [hcq]
  refine (((IoRing.pending_complete h).map _).append_right _).trans ?_
  rw [← List.append_assoc]
  exact List.perm_append_comm

theorem Wired.queue (h : Wired u s) (op : Op) (hnew : op.fd ∉ held s)
    (hopen : s.fds op.fd ≠ none) (hlistens : op.type = .accept → op.fd = u.sockListenFd)
    (hlt : op.fd < u.maxConnections) : Wired u (s.queue u op.fd op) := by
  have hpending : ∀ {sqe : Sqe}, sqe ∈ (s.queue u op.fd op).ring.pending →
      sqe = ⟨op, u.registerfiles, op.fd⟩ ∨ sqe ∈ s.ring.pending := by
    intro sqe hsqe
    exact List.mem_cons.mp ((IoRing.pending_push s.ring _).mem_iff.mp hsqe)
  constructor
  case batch => exact h.batch
  case nodup =>
    rw [(held_queue op op.fd).nodup_iff, List.nodup_cons]
    exact ⟨hnew, h.nodup⟩
  case isOpen =>
    intro fd hfd
    rcases List.mem_cons.mp ((held_queue op op.fd).mem_iff.mp hfd) with rfl | hfd
    · exact hopen
    · exact h.isOpen fd hfd
  case userData =>
    intro sqe hsqe
    rcases hpending hsqe with rfl | hsqe
    · rfl
    · exact h.userData sqe hsqe
  case record =>
    intro sqe hsqe
    rcases hpending hsqe with rfl | hsqe
    · exact Function.update_self ..
    · have hne : sqe.op.fd ≠ op.fd := by
        intro heq
        apply hnew
        rw [← heq]
        exact List.mem_append_left _ (List.mem_map_of_mem hsqe)
      exact (Function.update_of_ne hne ..).trans (h.record sqe hsqe)
  case listens =>
    intro sqe hsqe
    rcases hpending hsqe with rfl | hsqe
    · exact hlistens
    · exact h.listens sqe hsqe
  case inBounds =>
    intro sqe hsqe
    rcases hpending hsqe with rfl | hsqe
    · exact hlt
    · exact h.inBounds sqe hsqe

theorem Wired.of_held {t : State} (h : Wired u s) (hbatch : t.batch <+: t.ring.cq)
    (hpending : ∀ sqe ∈ t.ring.pending, sqe ∈ s.ring.pending) (hnodup : (held t).Nodup)
    (hopen : ∀ fd ∈ held t, t.fds fd ≠ none) (hconns : t.conns = s.conns) : Wired u t := by
  refine ⟨hbatch, hnodup, hopen, ?_, ?_, ?_, ?_⟩
  · exact fun sqe hsqe => h.userData sqe (hpending sqe hsqe)
  · rw [hconns]
    exact fun sqe hsqe => h.record sqe (hpending sqe hsqe)
  · exact fun sqe hsqe => h.listens sqe (hpending sqe hsqe)
  · exact fun sqe hsqe => h.inBounds sqe (hpending sqe hsqe)

structure Head (u : Setup) (s : State) (cqe : Cqe) (rest : List Cqe) : Prop where
  wired : Wired u ({ s with batch := rest } : State).cqeSeen
  pending : cqe.entry ∈ s.ring.pending
  fd : cqe.entry.op.fd ∉ held s.cqeSeen
  fdOpen : s.fds cqe.entry.op.fd ≠ none
  returned : ∀ fd ∈ opened cqe, fd ∉ held s.cqeSeen ∧ fd ≠ cqe.entry.op.fd ∧ s.fds fd ≠ none

theorem Wired.head {rest : List Cqe} (h : Wired u s) (hbatch : s.batch = cqe :: rest) :
    Head u s cqe rest := by
  rcases h.batch with ⟨more, hmore⟩
  rw [hbatch, List.cons_append] at hmore
  have hheld := held_seen hmore.symm
  have hmem : ∀ fd, fd ∈ cqe.entry.op.fd :: (opened cqe ++ held s.cqeSeen) → s.fds fd ≠ none :=
    fun fd hfd => h.isOpen fd (hheld.mem_iff.mpr hfd)
  have hcons := List.nodup_cons.mp (hheld.nodup_iff.mp h.nodup)
  have happend := List.nodup_append.mp hcons.2
  constructor
  case wired =>
    apply h.of_held
    · exact ⟨more, by simp [State.cqeSeen, ← hmore]⟩
    · intro sqe hsqe
      exact (IoRing.pending_seen hmore.symm).mem_iff.mpr (List.mem_cons_of_mem _ hsqe)
    · exact happend.2.1
    · exact fun fd hfd => hmem fd (List.mem_cons_of_mem _ (List.mem_append_right _ hfd))
    · rfl
  case pending => exact IoRing.mem_pending_of_cq (by rw [← hmore]; exact List.mem_cons_self ..)
  case fd => exact fun hin => hcons.1 (List.mem_append_right _ hin)
  case fdOpen => exact hmem _ (List.mem_cons_self ..)
  case returned =>
    intro fd hfd
    refine ⟨fun hin => happend.2.2 fd hfd fd hin rfl, ?_, ?_⟩
    · rintro rfl
      exact hcons.1 (List.mem_append_left _ hfd)
    · exact hmem fd (List.mem_cons_of_mem _ (List.mem_append_left _ hfd))

theorem Wired.conns_userData {sqe : Sqe} (h : Wired u s) (hsqe : sqe ∈ s.ring.pending) :
    s.conns sqe.userData = ⟨sqe.op.fd, sqe.op.type⟩ := by
  rw [h.userData sqe hsqe]
  exact h.record sqe hsqe

theorem Wired.registered {t : State} {fd : Int} (h : Wired u s) (ht : Registered u s fd t) :
    Wired u t := by
  cases ht with
  | unused | kept => exact h
  | filled => exact ⟨h.batch, h.nodup, h.isOpen, h.userData, h.record, h.listens, h.inBounds⟩

theorem registered_ring {t : State} {fd : Int} (ht : Registered u s fd t) : t.ring = s.ring := by
  cases ht with
  | unused | kept | filled => rfl

theorem held_registered {t : State} {fd : Int} (ht : Registered u s fd t) :
    held t = held s ∧ t.fds = s.fds := by
  cases ht with
  | unused | kept | filled => exact ⟨rfl, rfl⟩

theorem opened_of_accept (htype : cqe.entry.op.type = .accept) (hres : 0 ≤ cqe.res) :
    opened cqe = [cqe.res.toNat] := by
  unfold opened
  rw [if_pos ⟨htype, hres⟩]

inductive Reaction (u : Setup) (s : State) (cqe : Cqe) : State → Prop where
  | accepted {mid : State} (htype : cqe.entry.op.type = .accept)
      (hlisten : cqe.entry.op.fd = u.sockListenFd) (hpos : 0 ≤ cqe.res)
      (hlt : cqe.res < u.maxConnections) (hregistered : Registered u s.cqeSeen cqe.res mid) :
      Reaction u s cqe ((mid.queue u u.sockListenFd (.accept u.sockListenFd)).queue u
        cqe.res.toNat (.recv cqe.res.toNat cqe.res.toNat u.msgLen))
  | hungUp (htype : cqe.entry.op.type ≠ .accept) :
      Reaction u s cqe (s.cqeSeen.close cqe.entry.op.fd)
  | continued (op : Op) (htype : cqe.entry.op.type ≠ .accept) (hop : op.type ≠ .accept)
      (hfd : op.fd = cqe.entry.op.fd) (hlt : op.fd < u.maxConnections) :
      Reaction u s cqe (s.cqeSeen.queue u op.fd op)

theorem Wired.reaction {t : State} {rest : List Cqe} (h : Wired u s)
    (hbatch : s.batch = cqe :: rest) (ht : Answered u { s with batch := rest } cqe t) :
    Reaction u { s with batch := rest } cqe t := by
  have hcqe := (h.head hbatch).pending
  have hconns := h.conns_userData hcqe
  cases ht with
  | accepted htype hpos hlt hregistered =>
    simp only [hconns] at htype
    exact .accepted htype (h.listens _ hcqe htype) hpos hlt hregistered
  | hungUp htype hres =>
    simp only [hconns] at htype ⊢
    exact .hungUp (by simp [htype])
  | received htype hres hlt =>
    simp only [hconns] at htype hlt ⊢
    exact .continued (.send _ _ _) (by simp [htype]) (by simp) rfl hlt
  | sent htype hlt =>
    simp only [hconns] at htype hlt ⊢
    exact .continued (.recv _ _ _) (by simp [htype]) (by simp) rfl hlt
  | ignored htype hread hwrite =>
    simp only [hconns] at htype hread hwrite
    cases hop : cqe.entry.op with
    | accept => exact absurd (by rw [hop]; rfl) htype
    | recv => exact absurd (by rw [hop]; rfl) hread
    | send => exact absurd (by rw [hop]; rfl) hwrite

theorem Wired.answered {t : State} {rest : List Cqe} (h : Wired u s)
    (hbatch : s.batch = cqe :: rest) (ht : Reaction u { s with batch := rest } cqe t) :
    Wired u t := by
  have hhead := h.head hbatch
  cases ht with
  | accepted htype hlisten hpos hlt hregistered =>
    have hreturned := hhead.returned cqe.res.toNat (by
      rw [opened_of_accept htype hpos]
      exact List.mem_singleton_self _)
    have hsame := held_registered hregistered
    have haccept := (hhead.wired.registered hregistered).queue (.accept u.sockListenFd)
      (by rw [hsame.1, ← hlisten]; exact hhead.fd)
      (by rw [hsame.2, ← hlisten]; exact hhead.fdOpen) (fun _ => rfl)
      (by rw [accept_fd, ← hlisten]; exact h.inBounds _ hhead.pending)
    apply haccept.queue (.recv cqe.res.toNat cqe.res.toNat u.msgLen)
    · rw [(held_queue _ _).mem_iff, List.mem_cons, hsame.1]
      rintro (heq | hin)
      · exact hreturned.2.1 (heq.trans hlisten.symm)
      · exact hreturned.1 hin
    · rw [queue_fds, hsame.2]
      exact hreturned.2.2
    · exact fun htype => nomatch htype
    · rw [recv_fd]
      omega
  | hungUp htype =>
    refine hhead.wired.of_held hhead.wired.batch (fun sqe hsqe => hsqe) hhead.wired.nodup ?_ rfl
    intro fd hfd
    have hne : fd ≠ cqe.entry.op.fd := by
      rintro rfl
      exact hhead.fd hfd
    exact (Function.update_of_ne hne ..).trans_ne (hhead.wired.isOpen fd hfd)
  | continued op htype hop hfd hlt =>
    exact hhead.wired.queue op (by rw [hfd]; exact hhead.fd) (by rw [hfd]; exact hhead.fdOpen)
      (fun haccept => absurd haccept hop) hlt

theorem Wired.completed {i : Nat} (h : Wired u s) (hsqe : s.ring.inflight[i]? = some cqe.entry)
    (hpossible : s.Possible cqe) : Wired u (s.completed i cqe) := by
  have hheld := held_completed hsqe
  have hfree : ∀ fd ∈ opened cqe, s.fds fd = none := hpossible.2.2
  apply h.of_held
  · exact h.batch.trans (List.prefix_append _ _)
  · exact fun sqe hsqe' => (IoRing.pending_complete hsqe).mem_iff.mp hsqe'
  · rw [hheld.nodup_iff, List.nodup_append]
    refine ⟨?_, h.nodup, ?_⟩
    · unfold opened
      split <;> simp
    · rintro fd hfd other hother rfl
      exact h.isOpen fd hother (hfree fd hfd)
  · intro fd hfd
    rw [State.completed]
    dsimp only
    split
    · simp
    · rename_i hnew
      rcases List.mem_append.mp (hheld.mem_iff.mp hfd) with hin | hin
      · exact absurd hin hnew
      · exact h.isOpen fd hin
  · rfl

theorem held_submit (count : Nat) :
    (held { s with ring := s.ring.submit count, pc := .peeking }).Perm (held s) :=
  ((IoRing.pending_submit s.ring count).map _).append_right _

theorem Wired.step {t : State} {event : Event} (h : Wired u s) (hstep : step u s event = some t) :
    Wired u t := by
  cases step_sound hstep with
  | @submitted count hpc =>
    have hheld := held_submit (s := s) count
    apply h.of_held
    · exact h.batch
    · exact fun sqe hsqe => (IoRing.pending_submit s.ring count).mem_iff.mp hsqe
    · exact hheld.nodup_iff.mpr h.nodup
    · exact fun fd hfd => h.isOpen fd (hheld.mem_iff.mp hfd)
    · rfl
  | failed hpc =>
    exact ⟨h.batch, h.nodup, h.isOpen, h.userData, h.record, h.listens, h.inBounds⟩
  | peeked hpc =>
    exact ⟨List.take_prefix _ _, h.nodup, h.isOpen, h.userData, h.record, h.listens, h.inBounds⟩
  | answered hpc hbatch hanswered => exact h.answered hbatch (h.reaction hbatch hanswered)
  | stopped hpc hbatch hstop =>
    exact ⟨h.batch, h.nodup, h.isOpen, h.userData, h.record, h.listens, h.inBounds⟩
  | ended hpc hbatch =>
    exact ⟨h.batch, h.nodup, h.isOpen, h.userData, h.record, h.listens, h.inBounds⟩
  | completed hsqe hpossible => exact h.completed hsqe hpossible

end Moves

theorem held_of_empty {s : State} (hring : s.ring = .empty Sqe) : held s = [] := by
  rw [held, hring]
  rfl

theorem wired_of_empty {u : Setup} {s : State} (hring : s.ring = .empty Sqe)
    (hbatch : s.batch = []) : Wired u s := by
  have hpending : s.ring.pending = [] := by rw [hring, IoRing.pending_empty]
  have hheld := held_of_empty hring
  constructor
  case batch => simp [hbatch]
  case nodup => simp [hheld]
  all_goals simp [hheld, hpending]

theorem listening_ring (u : Setup) : (State.listening u).ring = .empty Sqe ∧
    (State.listening u).batch = [] ∧ (State.listening u).fds u.sockListenFd = some 0 := by
  unfold State.listening
  split <;> simp [State.blank, State.register]

theorem wired_init (u : Setup) : Wired u (State.init u) := by
  have hlistening := listening_ring u
  have hblank := wired_of_empty (u := u) hlistening.1 hlistening.2.1
  unfold State.init
  split
  · rename_i s hs
    rcases addAccept_eq_ok hs with ⟨-, hlt, rfl⟩
    apply hblank.queue (.accept u.sockListenFd)
    · simp [held_of_empty hlistening.1]
    · simp [hlistening.2.2]
    · exact fun _ => rfl
    · rw [accept_fd]
      omega
  · exact wired_of_empty hlistening.1 hlistening.2.1

theorem wired_of_reachable {u : Setup} {s : State} (h : Reachable (step u) (State.init u) s) :
    Wired u s :=
  h.invariant (Wired u) (wired_init u) fun _ _ _ _ hs hstep => hs.step hstep

/-- A completion that is processed reads the type and the descriptor of the operation that
has completed, and no two pending operations share a record. -/
theorem completion_reads_own_record {u : Setup} {s : State}
    (h : Reachable (step u) (State.init u) s) :
    (∀ cqe ∈ s.batch, s.conns cqe.entry.userData = ⟨cqe.entry.op.fd, cqe.entry.op.type⟩) ∧
      (s.ring.pending.map Sqe.userData).Nodup := by
  have hwired := wired_of_reachable h
  constructor
  · intro cqe hcqe
    exact hwired.conns_userData (IoRing.mem_pending_of_cq (hwired.batch.subset hcqe))
  · rw [List.map_congr_left hwired.userData]
    exact (List.nodup_append.mp hwired.nodup).1

theorem oneReuse_batch :
    (run (step fixedSetup) (State.init fixedSetup) oneReuse).map
      (fun s => (s.batch, s.ring.pending.map Sqe.userData)) =
      some ([⟨⟨.accept 3, true, 3⟩, 5⟩], [3]) := by
  decide +kernel

theorem oneReuse_reads_own_record :
    ∃ s, Reachable (step fixedSetup) (State.init fixedSetup) s ∧
      (∀ cqe ∈ s.batch, s.conns cqe.entry.userData = ⟨cqe.entry.op.fd, cqe.entry.op.type⟩) ∧
      (s.ring.pending.map Sqe.userData).Nodup := by
  rcases Reachable.of_view oneReuse_batch with ⟨s, hreach, -⟩
  exact ⟨s, hreach, completion_reads_own_record hreach⟩

end IoWrapper.EchoV1.Records
