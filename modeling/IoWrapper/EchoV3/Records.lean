import IoWrapper.EchoV3.Server

/-! The records that completions point to. The record of a descriptor in one of the tables
always gets the same contents, except that the listening socket has an accept where a
connection has a recv; and the listening socket is never closed. So a completion is processed
as what it is, however many operations share its record. -/
namespace IoWrapper.EchoV3.Records
open Core.Machine Server

def pending (s : State) : List Sqe := s.sq ++ s.inflight ++ s.cq.map Cqe.entry

def buffer : Op → Option Nat
  | .accept _ | .poll _ => none
  | .recv _ buf _ | .send _ buf _ => some buf

structure Wired (u : Setup) (s : State) : Prop where
  batch : s.batch <+: s.cq
  userData : ∀ sqe ∈ pending s, sqe.userData = ⟨sqe.op.table, sqe.op.fd⟩
  record : ∀ sqe ∈ pending s, s.conns sqe.op.table sqe.op.fd = ⟨sqe.op.fd, sqe.op.type⟩
  listens : ∀ sqe ∈ pending s, sqe.op.type = .accept ↔ sqe.op.fd = u.sockListenFd
  buffers : ∀ sqe ∈ pending s, ∀ buf ∈ buffer sqe.op, buf = sqe.op.fd
  returned : ∀ cqe ∈ s.cq, ∀ fd ∈ opened cqe.entry cqe.res, fd ≠ u.sockListenFd
  listening : s.fds u.sockListenFd ≠ none

theorem mem_pending {s : State} {sqe : Sqe} :
    sqe ∈ pending s ↔ sqe ∈ s.sq ∨ sqe ∈ s.inflight ∨ ∃ cqe ∈ s.cq, cqe.entry = sqe := by
  simp [pending]

theorem mem_pending_of_cq {s : State} {cqe : Cqe} (h : cqe ∈ s.cq) : cqe.entry ∈ pending s :=
  mem_pending.mpr (.inr (.inr ⟨cqe, h, rfl⟩))

theorem type_of_table {listen : Nat} {op other : Op} (htable : other.table = op.table)
    (hfd : other.fd = op.fd) (hop : op.type = .accept ↔ op.fd = listen)
    (hother : other.type = .accept ↔ other.fd = listen) : other.type = op.type := by
  cases op <;> cases other <;> simp_all [Op.table, Op.type, Op.fd]

theorem recv_of_type {op : Op} (htype : op.type = .read)
    (hbuffer : ∀ buf ∈ buffer op, buf = op.fd) : ∃ len, op = .recv op.fd op.fd len := by
  cases op with
  | recv fd buf len =>
    have heq : buf = fd := hbuffer buf rfl
    exact ⟨len, by rw [heq]; rfl⟩
  | accept | poll | send => cases htype

theorem send_of_type {op : Op} (htype : op.type = .write)
    (hbuffer : ∀ buf ∈ buffer op, buf = op.fd) : ∃ len, op = .send op.fd op.fd len := by
  cases op with
  | send fd buf len =>
    have heq : buf = fd := hbuffer buf rfl
    exact ⟨len, by rw [heq]; rfl⟩
  | accept | poll | recv => cases htype

section Moves

variable {u : Setup} {s t : State} {cqe : Cqe}

theorem Wired.of_subset (h : Wired u s) (hbatch : t.batch <+: t.cq)
    (hpending : ∀ sqe ∈ pending t, sqe ∈ pending s) (hcq : ∀ cqe ∈ t.cq, cqe ∈ s.cq)
    (hconns : t.conns = s.conns) (hlisten : t.fds u.sockListenFd ≠ none) : Wired u t := by
  refine ⟨hbatch, ?_, ?_, ?_, ?_, fun cqe hcqe => h.returned cqe (hcq cqe hcqe), hlisten⟩
  · exact fun sqe hsqe => h.userData sqe (hpending sqe hsqe)
  · rw [hconns]
    exact fun sqe hsqe => h.record sqe (hpending sqe hsqe)
  · exact fun sqe hsqe => h.listens sqe (hpending sqe hsqe)
  · exact fun sqe hsqe => h.buffers sqe (hpending sqe hsqe)

theorem pending_queue {op : Op} {note : Note} {sqe : Sqe}
    (h : sqe ∈ pending (s.queue u op note)) :
    sqe = ⟨op, op.fixed u, ⟨op.table, op.fd⟩, note⟩ ∨ sqe ∈ pending s := by
  rcases mem_pending.mp h with hsq | hrest
  · rcases List.mem_append.mp hsq with hsq | hnew
    · exact .inr (mem_pending.mpr (.inl hsq))
    · exact .inl (List.mem_singleton.mp hnew)
  · exact .inr (mem_pending.mpr (.inr hrest))

theorem Wired.queue (h : Wired u s) (op : Op) (note : Note)
    (hlistens : op.type = .accept ↔ op.fd = u.sockListenFd)
    (hbuffer : ∀ buf ∈ buffer op, buf = op.fd) : Wired u (s.queue u op note) := by
  refine ⟨h.batch, ?_, ?_, ?_, ?_, h.returned, h.listening⟩
  · intro sqe hsqe
    rcases pending_queue hsqe with rfl | hsqe
    · rfl
    · exact h.userData sqe hsqe
  · intro sqe hsqe
    rcases pending_queue hsqe with rfl | hsqe
    · exact if_pos ⟨rfl, rfl⟩
    · change (if _ then _ else _) = _
      split
      · rename_i hsame
        rw [type_of_table hsame.1 hsame.2 hlistens (h.listens sqe hsqe), hsame.2]
      · exact h.record sqe hsqe
  · intro sqe hsqe
    rcases pending_queue hsqe with rfl | hsqe
    · exact hlistens
    · exact h.listens sqe hsqe
  · intro sqe hsqe
    rcases pending_queue hsqe with rfl | hsqe
    · exact hbuffer
    · exact h.buffers sqe hsqe

theorem Wired.cqeSeen (h : Wired u s) {rest : List Cqe} (hbatch : s.batch = cqe :: rest) :
    Wired u ({ s with batch := rest } : State).cqeSeen := by
  rcases h.batch with ⟨more, hmore⟩
  rw [hbatch, List.cons_append] at hmore
  refine h.of_subset ⟨more, by simp [State.cqeSeen, ← hmore]⟩ ?_ ?_ rfl h.listening
  · intro sqe hsqe
    rcases mem_pending.mp hsqe with hsq | hflight | ⟨cqe, hcqe, heq⟩
    · exact mem_pending.mpr (.inl hsq)
    · exact mem_pending.mpr (.inr (.inl hflight))
    · exact mem_pending.mpr (.inr (.inr ⟨cqe, List.mem_of_mem_tail hcqe, heq⟩))
  · exact fun cqe hcqe => List.mem_of_mem_tail hcqe

theorem Wired.mem_cq {rest : List Cqe} (h : Wired u s) (hbatch : s.batch = cqe :: rest) :
    cqe ∈ s.cq :=
  h.batch.subset (by rw [hbatch]; exact List.mem_cons_self ..)

theorem Wired.cq_cons {rest : List Cqe} (h : Wired u s) (hbatch : s.batch = cqe :: rest) :
    s.cq = cqe :: s.cq.tail := by
  rcases h.batch with ⟨more, hmore⟩
  rw [hbatch, List.cons_append] at hmore
  rw [← hmore, List.tail_cons]

theorem Wired.record_head {rest : List Cqe} (h : Wired u s) (hbatch : s.batch = cqe :: rest) :
    s.record cqe = ⟨cqe.entry.op.fd, cqe.entry.op.type⟩ := by
  have hmem := mem_pending_of_cq (h.mem_cq hbatch)
  rw [State.record, h.userData _ hmem]
  exact h.record _ hmem

theorem Wired.registered {mid : State} {fd : Nat} (h : Wired u s) (hmid : Registered u s fd mid) :
    Wired u mid := by
  cases hmid with
  | unused | kept => exact h
  | filled =>
    exact ⟨h.batch, h.userData, h.record, h.listens, h.buffers, h.returned, h.listening⟩

inductive Reaction (u : Setup) (s : State) (cqe : Cqe) : State → Prop where
  | accepted {mid : State} (hop : cqe.entry.op = .accept u.sockListenFd)
      (hopened : opened cqe.entry cqe.res = [cqe.res.toNat])
      (hmid : Registered u s.cqeSeen cqe.res.toNat mid) :
      Reaction u s cqe ((mid.queue u (.poll cqe.res.toNat) ⟨cqe.note.conn, []⟩).queue u
        (.accept u.sockListenFd) ⟨0, []⟩)
  | hungUp {fd len : Nat} (hop : cqe.entry.op = .recv fd fd len) (hres : cqe.res ≤ 0) :
      Reaction u s cqe (s.cqeSeen.hangUp fd cqe.note.conn)
  | received {fd len : Nat} (hop : cqe.entry.op = .recv fd fd len) (hres : 0 < cqe.res) :
      Reaction u s cqe (s.cqeSeen.queue u (.send fd fd cqe.res.toNat) cqe.note)
  | sent {fd len : Nat} (hop : cqe.entry.op = .send fd fd len) : Reaction u s cqe s.cqeSeen
  | ready {fd : Nat} (hop : cqe.entry.op = .poll fd) :
      Reaction u s cqe (s.cqeSeen.queue u (.recv fd fd u.msgLen) ⟨cqe.note.conn, []⟩)

theorem Wired.reaction {rest : List Cqe} (h : Wired u s) (hbatch : s.batch = cqe :: rest)
    (ht : Answered u { s with batch := rest } cqe t) :
    Reaction u { s with batch := rest } cqe t := by
  have hmem := mem_pending_of_cq (h.mem_cq hbatch)
  have hrecord : ({ s with batch := rest } : State).record cqe =
      ⟨cqe.entry.op.fd, cqe.entry.op.type⟩ := h.record_head hbatch
  have hbuffer := h.buffers _ hmem
  have hlistens := (h.listens _ hmem).mp
  cases ht with
  | accepted htype hpos hlt hmid =>
    rw [hrecord] at htype
    have hfd := hlistens htype
    have hopened : opened cqe.entry cqe.res = [cqe.res.toNat] := if_pos ⟨htype, hpos⟩
    cases hop : cqe.entry.op with
    | accept fd =>
      rw [hop] at hfd
      exact .accepted (by rw [hop, ← hfd]; rfl) hopened hmid
    | poll | recv | send => simp [hop, Op.type] at htype
  | hungUp htype hres =>
    rw [hrecord] at htype ⊢
    rcases recv_of_type htype hbuffer with ⟨len, hop⟩
    exact .hungUp hop hres
  | received htype hres hlt =>
    rw [hrecord] at htype ⊢
    rcases recv_of_type htype hbuffer with ⟨len, hop⟩
    exact .received hop hres
  | sent htype =>
    rw [hrecord] at htype
    rcases send_of_type htype hbuffer with ⟨len, hop⟩
    exact .sent hop
  | ready htype hlt =>
    rw [hrecord] at htype ⊢
    cases hop : cqe.entry.op with
    | poll fd => exact .ready hop
    | accept | recv | send => simp [hop, Op.type] at htype
  | ignored htype =>
    rw [hrecord] at htype
    cases hop : cqe.entry.op with
    | accept | poll | recv | send => simp [hop, Op.type] at htype

theorem Wired.answered {rest : List Cqe} (h : Wired u s) (hbatch : s.batch = cqe :: rest)
    (ht : Reaction u { s with batch := rest } cqe t) : Wired u t := by
  have hseen := h.cqeSeen hbatch
  have hmem := mem_pending_of_cq (h.mem_cq hbatch)
  have hne : cqe.entry.op.type ≠ .accept → cqe.entry.op.fd ≠ u.sockListenFd :=
    fun htype heq => htype ((h.listens _ hmem).mpr heq)
  cases ht with
  | accepted hop hopened hmid =>
    have hfd := h.returned cqe (h.mem_cq hbatch) cqe.res.toNat (by simp [hopened])
    have hpolling := (hseen.registered hmid).queue (.poll cqe.res.toNat) ⟨cqe.note.conn, []⟩
      (by simp [Op.type, Op.fd, hfd]) (by simp [buffer])
    exact hpolling.queue _ _ (by simp [Op.type, Op.fd]) (by simp [buffer])
  | @hungUp fd len hop hres =>
    have hfd : fd ≠ u.sockListenFd := by simpa [hop, Op.type, Op.fd] using hne
    refine ⟨hseen.batch, hseen.userData, hseen.record, hseen.listens, hseen.buffers,
      hseen.returned, ?_⟩
    exact (Function.update_of_ne hfd.symm ..).trans_ne hseen.listening
  | @received fd len hop hres =>
    have hfd : fd ≠ u.sockListenFd := by simpa [hop, Op.type, Op.fd] using hne
    exact hseen.queue _ _ (by simp [Op.type, Op.fd, hfd]) (by simp [buffer, Op.fd])
  | sent hop => exact hseen
  | @ready fd hop =>
    have hfd : fd ≠ u.sockListenFd := by simpa [hop, Op.type, Op.fd] using hne
    exact hseen.queue _ _ (by simp [Op.type, Op.fd, hfd]) (by simp [buffer, Op.fd])

theorem pending_complete {i : Nat} {sqe sqe' : Sqe} {res : Int} {data : List UInt8} {more : Bool}
    (hsqe : s.inflight[i]? = some sqe)
    (h : sqe' ∈ pending (s.complete i sqe res data more)) : sqe' ∈ pending s := by
  rcases mem_pending.mp h with hsq | hin | ⟨cqe, hcqe, heq⟩
  · exact mem_pending.mpr (.inl hsq)
  · apply mem_pending.mpr (.inr (.inl _))
    cases more with
    | true => exact hin
    | false => exact List.mem_of_mem_eraseIdx hin
  · rcases List.mem_append.mp hcqe with hcqe | hcqe
    · exact mem_pending.mpr (.inr (.inr ⟨cqe, hcqe, heq⟩))
    · cases List.mem_singleton.mp hcqe
      exact mem_pending.mpr (.inr (.inl (heq ▸ List.mem_of_getElem? hsqe)))

theorem Wired.completed {i : Nat} {sqe : Sqe} {res : Int} {data : List UInt8} {more : Bool}
    (h : Wired u s) (hsqe : s.inflight[i]? = some sqe) (hpossible : s.Possible sqe res data more) :
    Wired u (s.complete i sqe res data more) := by
  refine ⟨h.batch.trans (List.prefix_append ..), ?_, ?_, ?_, ?_, ?_, ?_⟩
  · exact fun sqe' hsqe' => h.userData sqe' (pending_complete hsqe hsqe')
  · exact fun sqe' hsqe' => h.record sqe' (pending_complete hsqe hsqe')
  · exact fun sqe' hsqe' => h.listens sqe' (pending_complete hsqe hsqe')
  · exact fun sqe' hsqe' => h.buffers sqe' (pending_complete hsqe hsqe')
  · intro cqe hcqe fd hfd heq
    rcases List.mem_append.mp hcqe with hcqe | hcqe
    · exact h.returned cqe hcqe fd hfd heq
    · cases List.mem_singleton.mp hcqe
      exact h.listening (heq ▸ hpossible.2.1 fd hfd)
  · change (if _ then _ else _) ≠ none
    split
    · simp
    · exact h.listening

theorem pending_submit {count : Nat} {sqe : Sqe} :
    sqe ∈ pending (s.submit count) ↔ sqe ∈ pending s := by
  have hsq : sqe ∈ s.sq ↔ sqe ∈ s.sq.take count ∨ sqe ∈ s.sq.drop count := by
    rw [← List.mem_append, List.take_append_drop]
  rw [mem_pending, mem_pending, hsq]
  simp only [State.submit, List.mem_append]
  tauto

theorem Wired.step {event : Event} (h : Wired u s) (hstep : step u s event = some t) :
    Wired u t := by
  cases step_sound hstep with
  | submitted hpc =>
    exact h.of_subset h.batch (fun sqe => pending_submit.mp) (fun _ hcqe => hcqe) rfl h.listening
  | failed | stopped | ended =>
    exact ⟨h.batch, h.userData, h.record, h.listens, h.buffers, h.returned, h.listening⟩
  | peeked hpc =>
    exact ⟨List.take_prefix .., h.userData, h.record, h.listens, h.buffers, h.returned,
      h.listening⟩
  | answered hpc hbatch hok hanswered => exact h.answered hbatch (h.reaction hbatch hanswered)
  | completed hsqe hpossible => exact h.completed hsqe hpossible

end Moves

theorem wired_of_blank {u : Setup} {s : State} (hpending : pending s = []) (hbatch : s.batch = [])
    (hcq : s.cq = []) (hlisten : s.fds u.sockListenFd ≠ none) : Wired u s := by
  refine ⟨by simp [hbatch], ?_, ?_, ?_, ?_, ?_, hlisten⟩
  all_goals simp [hpending, hcq]

theorem listening_blank (u : Setup) : pending (State.listening u) = [] ∧
    (State.listening u).batch = [] ∧ (State.listening u).cq = [] ∧
    (State.listening u).fds u.sockListenFd = some 0 := by
  unfold State.listening
  split <;> simp [State.blank, State.register, pending]

theorem wired_init (u : Setup) : Wired u (State.init u) := by
  rcases listening_blank u with ⟨hpending, hbatch, hcq, hlisten⟩
  have hblank : Wired u (State.listening u) :=
    wired_of_blank hpending hbatch hcq (by simp [hlisten])
  unfold State.init
  cases hadd : addAccept u (State.listening u) u.sockListenFd with
  | ok s =>
    rcases addAccept_eq_ok hadd with ⟨-, -, rfl⟩
    exact hblank.queue _ _ (by simp [Op.type, Op.fd]) (by simp [buffer])
  | error stop =>
    exact ⟨hblank.batch, hblank.userData, hblank.record, hblank.listens, hblank.buffers,
      hblank.returned, hblank.listening⟩

theorem wired_of_reachable {u : Setup} {s : State} (h : Reachable (step u) (State.init u) s) :
    Wired u s :=
  h.invariant (Wired u) (wired_init u) fun _ _ _ _ hs hstep => hs.step hstep

end IoWrapper.EchoV3.Records
