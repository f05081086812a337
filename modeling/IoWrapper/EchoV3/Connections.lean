import IoWrapper.EchoV3.Records

/-! What is done for one connection and what it is done to. The poll of a connection stays in
flight when the connection is closed, and a recv or a send that is queued names a descriptor
that may be somebody else's by the time it is submitted. If a connection is closed only when
no recv is left for it and no send is still to be submitted, and its poll is not heard of
again, every call reaches the connection that it is issued for. -/
namespace IoWrapper.EchoV3.Connections
open Core.Machine Server Records

def closes (s : State) (conn : Nat) : Nat :=
  s.calls.countP fun call => call.kind = .close ∧ call.conn = conn

/-- The call has been applied to a file that was opened later than the connection that it was
issued for. -/
def Later (call : Call) : Prop := ∃ file, call.file = some file ∧ call.conn < file

structure Separate (s : State) : Prop where
  once : ∀ conn, closes s conn ≤ 1
  own : ∀ call ∈ s.calls, ¬Later call

/-- The recv that has completed is the last one for its connection, and no send for it is
still queued. -/
def Last (s : State) (cqe : Cqe) : Prop :=
  (∀ sqe ∈ pending s.cqeSeen, sqe.note.conn = cqe.note.conn → sqe.op.type ≠ .read) ∧
    ∀ sqe ∈ s.sq, sqe.note.conn = cqe.note.conn → sqe.op.type ≠ .write

instance (s : State) (cqe : Cqe) : Decidable (Last s cqe) :=
  inferInstanceAs (Decidable (_ ∧ _))

/-- The connection is closed only after its last recv, and a poll does not complete for a
connection that is closed. -/
def CalmCqe (s : State) (cqe : Cqe) : Prop :=
  (cqe.entry.op.type = .read ∧ cqe.res ≤ 0 → Last s cqe) ∧
    (cqe.entry.op.type = .pollInReady → closes s cqe.note.conn = 0)

instance (s : State) (cqe : Cqe) : Decidable (CalmCqe s cqe) :=
  inferInstanceAs (Decidable ((_ → _) ∧ (_ → _)))

def Calm (s : State) : Event → Prop
  | .handle _ => ∀ cqe ∈ s.batch.head?, CalmCqe s cqe
  | .submit _ | .submitError | .peek | .endBatch | .complete .. => True

instance (s : State) : (event : Event) → Decidable (Calm s event)
  | .handle _ => inferInstanceAs (Decidable (∀ cqe ∈ s.batch.head?, CalmCqe s cqe))
  | .submit _ | .submitError | .peek | .endBatch | .complete .. => isTrue trivial

/-- A connection that is not closed has its descriptor, and one that is closed has no recv
left and no send to submit. A slot of the registered files holds nothing newer than what is
open under its number. -/
structure Owned (s : State) : Prop where
  noted : ∀ cqe ∈ s.cq, cqe.entry.op.type ≠ .accept → cqe.note.conn = cqe.entry.note.conn
  live : ∀ sqe ∈ pending s, sqe.op.type ≠ .accept → closes s sqe.note.conn = 0 →
    s.fds sqe.op.fd = some sqe.note.conn
  fresh : ∀ cqe ∈ s.cq, ∀ fd ∈ opened cqe.entry cqe.res, closes s cqe.note.conn = 0 →
    s.fds fd = some cqe.note.conn
  recvs : ∀ sqe ∈ pending s, sqe.op.type = .read → closes s sqe.note.conn = 0
  sends : ∀ sqe ∈ s.sq, sqe.op.type = .write → closes s sqe.note.conn = 0
  known : ∀ fd file, s.fds fd = some file → file < s.files
  older : ∀ fd file, s.slots fd = some file → file < s.files ∧
    ∀ conn, s.fds fd = some conn → file ≤ conn
  separate : Separate s

section Moves

variable {u : Setup} {s t : State} {cqe : Cqe}

theorem closes_of_calls (h : t.calls = s.calls) (conn : Nat) : closes t conn = closes s conn := by
  rw [closes, closes, h]

theorem Owned.of_subset (h : Owned s) (hpending : ∀ sqe ∈ pending t, sqe ∈ pending s)
    (hsq : ∀ sqe ∈ t.sq, sqe ∈ s.sq) (hcq : ∀ cqe ∈ t.cq, cqe ∈ s.cq) (hfds : t.fds = s.fds)
    (hslots : t.slots = s.slots) (hfiles : t.files = s.files) (hcalls : t.calls = s.calls) :
    Owned t := by
  have hcloses := closes_of_calls hcalls
  refine ⟨fun cqe hmem => h.noted cqe (hcq cqe hmem), ?_, ?_, ?_, ?_, ?_, ?_, ⟨?_, ?_⟩⟩
  · intro sqe hmem htype hopen
    rw [hfds]
    exact h.live sqe (hpending sqe hmem) htype (hcloses _ ▸ hopen)
  · intro cqe hmem fd hfd hopen
    rw [hfds]
    exact h.fresh cqe (hcq cqe hmem) fd hfd (hcloses _ ▸ hopen)
  · exact fun sqe hmem htype => hcloses _ ▸ h.recvs sqe (hpending sqe hmem) htype
  · exact fun sqe hmem htype => hcloses _ ▸ h.sends sqe (hsq sqe hmem) htype
  · rw [hfds, hfiles]
    exact h.known
  · rw [hslots, hfds, hfiles]
    exact h.older
  · exact fun conn => hcloses conn ▸ h.separate.once conn
  · rw [hcalls]
    exact h.separate.own

theorem Owned.cqeSeen (h : Owned s) : Owned s.cqeSeen := by
  refine h.of_subset ?_ (fun _ hmem => hmem) (fun _ hmem => List.mem_of_mem_tail hmem)
    rfl rfl rfl rfl
  intro sqe hmem
  rcases mem_pending.mp hmem with hsq | hflight | ⟨cqe, hcqe, heq⟩
  · exact mem_pending.mpr (.inl hsq)
  · exact mem_pending.mpr (.inr (.inl hflight))
  · exact mem_pending.mpr (.inr (.inr ⟨cqe, List.mem_of_mem_tail hcqe, heq⟩))

theorem Owned.queue (h : Owned s) (op : Op) (note : Note)
    (hlive : op.type ≠ .accept → closes s note.conn = 0 → s.fds op.fd = some note.conn)
    (hopen : op.type = .read ∨ op.type = .write → closes s note.conn = 0) :
    Owned (s.queue u op note) := by
  refine ⟨h.noted, ?_, h.fresh, ?_, ?_, h.known, h.older, ⟨h.separate.once, h.separate.own⟩⟩
  · intro sqe hmem
    rcases pending_queue hmem with rfl | hmem
    · exact hlive
    · exact h.live sqe hmem
  · intro sqe hmem htype
    rcases pending_queue hmem with rfl | hmem
    · exact hopen (.inl htype)
    · exact h.recvs sqe hmem htype
  · intro sqe hmem htype
    rcases List.mem_append.mp hmem with hmem | hmem
    · exact h.sends sqe hmem htype
    · cases List.mem_singleton.mp hmem
      exact hopen (.inr htype)

theorem Owned.registered {mid : State} {fd : Nat} (h : Owned s) (hmid : Registered u s fd mid) :
    Owned mid := by
  cases hmid with
  | unused | kept => exact h
  | filled =>
    refine ⟨h.noted, h.live, h.fresh, h.recvs, h.sends, h.known, ?_,
      ⟨h.separate.once, h.separate.own⟩⟩
    intro fd' file hslot
    change Function.update s.slots fd (s.fds fd) fd' = some file at hslot
    by_cases hfd : fd' = fd
    · subst hfd
      rw [Function.update_self] at hslot
      refine ⟨h.known fd' file hslot, fun conn hconn => ?_⟩
      cases hslot.symm.trans hconn
      exact Nat.le_refl _
    · rw [Function.update_of_ne hfd] at hslot
      exact h.older fd' file hslot

theorem registered_same {mid : State} {fd : Nat} (hmid : Registered u s fd mid) :
    mid.fds = s.fds ∧ mid.calls = s.calls := by
  cases hmid with
  | unused | kept | filled => exact ⟨rfl, rfl⟩

theorem closes_hangUp (fd conn other : Nat) :
    closes (s.hangUp fd conn) other = closes s other + if conn = other then 1 else 0 := by
  simp [closes, State.hangUp, List.countP_cons]

theorem closes_hangUp_eq_zero {fd conn other : Nat} :
    closes (s.hangUp fd conn) other = 0 ↔ closes s other = 0 ∧ conn ≠ other := by
  rw [closes_hangUp, Nat.add_eq_zero_iff]
  simp

theorem hangUp_fds_of_ne {fd fd' conn other : Nat} (hfd : s.fds fd = some conn)
    (hother : s.fds fd' = some other) (hne : conn ≠ other) :
    (s.hangUp fd conn).fds fd' = some other := by
  refine (Function.update_of_ne ?_ ..).trans hother
  rintro rfl
  exact hne (Option.some.inj (hfd.symm.trans hother))

theorem fds_of_hangUp {fd fd' conn file : Nat} (h : (s.hangUp fd conn).fds fd' = some file) :
    s.fds fd' = some file := by
  change Function.update s.fds fd none fd' = some file at h
  rw [Function.update_apply] at h
  split at h
  · cases h
  · exact h

theorem Owned.hangUp {fd conn : Nat} (h : Owned s) (hopen : closes s conn = 0)
    (hfd : s.fds fd = some conn)
    (hrecvs : ∀ sqe ∈ pending s, sqe.note.conn = conn → sqe.op.type ≠ .read)
    (hsends : ∀ sqe ∈ s.sq, sqe.note.conn = conn → sqe.op.type ≠ .write) :
    Owned (s.hangUp fd conn) := by
  refine ⟨h.noted, ?_, ?_, ?_, ?_, ?_, ?_, ⟨?_, ?_⟩⟩
  · intro sqe hmem htype hzero
    rcases closes_hangUp_eq_zero.mp hzero with ⟨hopen', hne⟩
    exact hangUp_fds_of_ne hfd (h.live sqe hmem htype hopen') hne
  · intro cqe hmem fd' hfd' hzero
    rcases closes_hangUp_eq_zero.mp hzero with ⟨hopen', hne⟩
    exact hangUp_fds_of_ne hfd (h.fresh cqe hmem fd' hfd' hopen') hne
  · intro sqe hmem htype
    have hne := fun heq => hrecvs sqe hmem (Eq.symm heq) htype
    exact closes_hangUp_eq_zero.mpr ⟨h.recvs sqe hmem htype, hne⟩
  · intro sqe hmem htype
    have hne := fun heq => hsends sqe hmem (Eq.symm heq) htype
    exact closes_hangUp_eq_zero.mpr ⟨h.sends sqe hmem htype, hne⟩
  · exact fun fd' file hfile => h.known fd' file (fds_of_hangUp hfile)
  · intro fd' file hslot
    have holder := h.older fd' file hslot
    exact ⟨holder.1, fun other hother => holder.2 other (fds_of_hangUp hother)⟩
  · intro other
    rw [closes_hangUp]
    have honce := h.separate.once other
    split
    · rename_i heq
      subst heq
      omega
    · omega
  · intro call hmem
    rcases List.mem_append.mp hmem with hmem | hmem
    · exact h.separate.own call hmem
    · have hsame : call.file = s.fds fd ∧ call.conn = conn := by
        simp only [List.mem_cons, List.not_mem_nil, or_false] at hmem
        rcases hmem with rfl | rfl <;> exact ⟨rfl, rfl⟩
      rintro ⟨file, hfile, hlt⟩
      have heq := Option.some.inj ((hfile.symm.trans hsame.1).trans hfd)
      omega

theorem Owned.answered (h : Owned s) (hmem : cqe ∈ s.cq)
    (ht : Reaction u s cqe t) (hcalm : CalmCqe s cqe) : Owned t := by
  have hseen := h.cqeSeen
  have hentry := mem_pending_of_cq hmem
  cases ht with
  | accepted hop hopened hmid =>
    have hsame := registered_same hmid
    have hpolling : Owned (_ : State) := (hseen.registered hmid).queue (u := u)
      (.poll cqe.res.toNat) ⟨cqe.note.conn, []⟩ (by
        intro _ hzero
        rw [closes_of_calls hsame.2] at hzero
        rw [hsame.1]
        exact h.fresh cqe hmem _ (by simp [hopened, Op.fd]) hzero) (by simp [Op.type])
    exact hpolling.queue _ _ (by simp [Op.type]) (by simp [Op.type])
  | @hungUp fd len hop hres =>
    have hconn := h.noted cqe hmem (by simp [hop, Op.type])
    have hopen := h.recvs _ hentry (by simp [hop, Op.type])
    have hfd := h.live _ hentry (by simp [hop, Op.type]) hopen
    rw [hop, ← hconn] at hfd
    have hlast := hcalm.1 ⟨by simp [hop, Op.type], hres⟩
    exact hseen.hangUp (hconn ▸ hopen) hfd hlast.1 hlast.2
  | @received fd len hop hres =>
    have hconn := h.noted cqe hmem (by simp [hop, Op.type])
    have hopen := h.recvs _ hentry (by simp [hop, Op.type])
    have hfd := h.live _ hentry (by simp [hop, Op.type]) hopen
    rw [hop] at hfd
    exact hseen.queue _ _ (fun _ _ => hconn ▸ hfd) (fun _ => hconn ▸ hopen)
  | sent hop => exact hseen
  | @ready fd hop =>
    have hconn := h.noted cqe hmem (by simp [hop, Op.type])
    have hopen := hcalm.2 (by simp [hop, Op.type])
    have hfd := h.live _ hentry (by simp [hop, Op.type]) (hconn ▸ hopen)
    rw [hop] at hfd
    exact hseen.queue _ _ (fun _ _ => hconn ▸ hfd) (fun _ => hopen)

theorem Owned.target_le {sqe : Sqe} {file : Nat} (h : Owned s) (hmem : sqe ∈ s.sq)
    (htype : sqe.op.type = .read ∨ sqe.op.type = .write) (hfile : s.target sqe = some file) :
    file ≤ sqe.note.conn := by
  have hpending : sqe ∈ pending s := mem_pending.mpr (.inl hmem)
  have hlive : s.fds sqe.op.fd = some sqe.note.conn := by
    rcases htype with htype | htype
    · exact h.live sqe hpending (by simp [htype]) (h.recvs sqe hpending htype)
    · exact h.live sqe hpending (by simp [htype]) (h.sends sqe hmem htype)
  unfold State.target at hfile
  split at hfile
  · exact (h.older _ _ hfile).2 _ hlive
  · cases hlive.symm.trans hfile
    exact Nat.le_refl _

theorem Owned.not_later {sqe : Sqe} {call : Call} (h : Owned s) (hmem : sqe ∈ s.sq)
    (hcall : call ∈ s.call sqe) : ¬Later call ∧ call.kind ≠ .close := by
  cases hop : sqe.op with
  | accept | poll => simp [State.call, hop] at hcall
  | recv | send =>
    simp only [State.call, hop, List.mem_singleton] at hcall
    subst hcall
    refine ⟨?_, by simp⟩
    rintro ⟨file, hfile, hlt⟩
    exact Nat.not_lt.mpr (h.target_le hmem (by simp [hop, Op.type]) hfile) hlt

theorem Owned.submit (h : Owned s) (count : Nat) : Owned (s.submit count) := by
  have hnew : ∀ call ∈ (s.sq.take count).flatMap s.call, ¬Later call ∧ call.kind ≠ .close := by
    intro call hmem
    rcases List.mem_flatMap.mp hmem with ⟨sqe, hsqe, hcall⟩
    exact h.not_later (List.mem_of_mem_take hsqe) hcall
  have hcloses : ∀ conn, closes (s.submit count) conn = closes s conn := by
    intro conn
    have hzero : ((s.sq.take count).flatMap s.call).countP
        (fun call => call.kind = .close ∧ call.conn = conn) = 0 := by
      rw [List.countP_eq_zero]
      intro call hmem
      simp [(hnew call hmem).2]
    change (s.calls ++ (s.sq.take count).flatMap s.call).countP _ = _
    rw [List.countP_append, hzero, Nat.add_zero]
    rfl
  refine ⟨h.noted, ?_, ?_, ?_, ?_, h.known, h.older, ⟨?_, ?_⟩⟩
  · intro sqe hmem htype hzero
    exact h.live sqe (pending_submit.mp hmem) htype (hcloses _ ▸ hzero)
  · intro cqe hmem fd hfd hzero
    exact h.fresh cqe hmem fd hfd (hcloses _ ▸ hzero)
  · intro sqe hmem htype
    exact (hcloses _).trans (h.recvs sqe (pending_submit.mp hmem) htype)
  · intro sqe hmem htype
    exact (hcloses _).trans (h.sends sqe (List.mem_of_mem_drop hmem) htype)
  · exact fun conn => Nat.le_trans (Nat.le_of_eq (hcloses conn)) (h.separate.once conn)
  · intro call hmem
    rcases List.mem_append.mp hmem with hmem | hmem
    · exact h.separate.own call hmem
    · exact (hnew call hmem).1

theorem Owned.completed {i : Nat} {sqe : Sqe} {res : Int} {data : List UInt8} {more : Bool}
    (h : Owned s) (hsqe : s.inflight[i]? = some sqe) (hpossible : s.Possible sqe res data more) :
    Owned (s.complete i sqe res data more) := by
  have hfree := hpossible.2.1
  have hkept : ∀ fd file, s.fds fd = some file →
      (s.complete i sqe res data more).fds fd = some file := by
    intro fd file hfile
    refine (if_neg fun hnew => ?_).trans hfile
    cases (hfree fd hnew).symm.trans hfile
  have hfiles : s.files ≤ (s.complete i sqe res data more).files := Nat.le_add_right ..
  have hfds : ∀ fd file, (s.complete i sqe res data more).fds fd = some file →
      s.fds fd = some file ∨ file = s.files ∧ opened sqe res ≠ [] := by
    intro fd file hfile
    change (if _ then _ else _) = _ at hfile
    split at hfile
    · rename_i hnew
      exact .inr ⟨(Option.some.inj hfile).symm, List.ne_nil_of_mem hnew⟩
    · exact .inl hfile
  have hgrows : opened sqe res ≠ [] → s.files < (s.complete i sqe res data more).files :=
    fun hne => Nat.lt_add_of_pos_right (List.length_pos_iff.mpr hne)
  refine ⟨?_, ?_, ?_, ?_, h.sends, ?_, ?_, ⟨h.separate.once, h.separate.own⟩⟩
  · intro cqe hmem htype
    rcases List.mem_append.mp hmem with hmem | hmem
    · exact h.noted cqe hmem htype
    · cases List.mem_singleton.mp hmem
      have hnone : opened sqe res = [] := if_neg fun hopened => htype hopened.1
      exact if_pos hnone
  · intro sqe' hmem htype hzero
    exact hkept _ _ (h.live sqe' (pending_complete hsqe hmem) htype hzero)
  · intro cqe hmem fd hfd hzero
    rcases List.mem_append.mp hmem with hmem | hmem
    · exact hkept _ _ (h.fresh cqe hmem fd hfd hzero)
    · cases List.mem_singleton.mp hmem
      have hconn : s.connOf sqe res = s.files := if_neg (List.ne_nil_of_mem hfd)
      exact (if_pos hfd).trans (congrArg some hconn.symm)
  · exact fun sqe' hmem htype => h.recvs sqe' (pending_complete hsqe hmem) htype
  · intro fd file hfile
    rcases hfds fd file hfile with hold | ⟨rfl, hne⟩
    · exact Nat.lt_of_lt_of_le (h.known fd file hold) hfiles
    · exact hgrows hne
  · intro fd file hslot
    have holder := h.older fd file hslot
    refine ⟨Nat.lt_of_lt_of_le holder.1 hfiles, fun conn hconn => ?_⟩
    rcases hfds fd conn hconn with hold | ⟨rfl, hne⟩
    · exact holder.2 conn hold
    · exact Nat.le_of_lt holder.1

theorem Owned.step {event : Event} (h : Owned s) (hwired : Wired u s) (hcalm : Calm s event)
    (hstep : step u s event = some t) : Owned t := by
  cases step_sound hstep with
  | submitted hpc => exact h.submit _
  | failed | stopped | ended | peeked =>
    exact ⟨h.noted, h.live, h.fresh, h.recvs, h.sends, h.known, h.older,
      ⟨h.separate.once, h.separate.own⟩⟩
  | @answered cqe rest ret _ hpc hbatch hok hanswered =>
    have hpart : Owned { s with batch := rest } :=
      ⟨h.noted, h.live, h.fresh, h.recvs, h.sends, h.known, h.older,
        ⟨h.separate.once, h.separate.own⟩⟩
    have hhead : CalmCqe s cqe := hcalm cqe (by simp [hbatch])
    exact hpart.answered (hwired.mem_cq hbatch) (hwired.reaction hbatch hanswered) hhead
  | completed hsqe hpossible => exact h.completed hsqe hpossible

end Moves

theorem listening_file {u : Setup} {fd file : Nat} :
    ((State.listening u).fds fd = some file → file = 0) ∧
      ((State.listening u).slots fd = some file → file = 0) := by
  have hblank : (State.blank u).fds fd = some file → file = 0 := by
    intro hfile
    simp only [State.blank, Function.update_apply] at hfile
    split at hfile
    · exact (Option.some.inj hfile).symm
    · cases hfile
  unfold State.listening
  split
  · refine ⟨hblank, fun hfile => ?_⟩
    simp only [State.register, State.blank, Function.update_self, Function.update_apply] at hfile
    split at hfile
    · exact (Option.some.inj hfile).symm
    · cases hfile
  · refine ⟨hblank, fun hfile => ?_⟩
    cases hfile

theorem owned_listening (u : Setup) : Owned (State.listening u) := by
  have hrest : (State.listening u).sq = [] ∧ (State.listening u).files = 1 ∧
      (State.listening u).calls = [] := by
    unfold State.listening
    split <;> exact ⟨rfl, rfl, rfl⟩
  rcases hrest with ⟨hsq, hfiles, hcalls⟩
  rcases listening_blank u with ⟨hpending, -, hcq, -⟩
  refine ⟨?_, ?_, ?_, ?_, ?_, ?_, ?_, ⟨?_, ?_⟩⟩
  · simp [hcq]
  · simp [hpending]
  · simp [hcq]
  · simp [hpending]
  · simp [hsq]
  · intro fd file hfile
    rw [listening_file.1 hfile, hfiles]
    exact Nat.one_pos
  · intro fd file hslot
    rw [listening_file.2 hslot, hfiles]
    exact ⟨Nat.one_pos, fun conn _ => Nat.zero_le conn⟩
  · simp [closes, hcalls]
  · simp [hcalls]

theorem owned_init (u : Setup) : Owned (State.init u) := by
  have hblank := owned_listening u
  unfold State.init
  cases hadd : addAccept u (State.listening u) u.sockListenFd with
  | ok s =>
    rcases addAccept_eq_ok hadd with ⟨-, -, rfl⟩
    exact hblank.queue _ _ (by simp [Op.type]) (by simp [Op.type])
  | error stop =>
    exact ⟨hblank.noted, hblank.live, hblank.fresh, hblank.recvs, hblank.sends, hblank.known,
      hblank.older, ⟨hblank.separate.once, hblank.separate.own⟩⟩

/-- Every connection is closed at most once, and no call for it reaches a later one, if it is
closed only after its last recv and with no send to submit, and no completion of its poll is
processed after that. -/
theorem separate_of_calm {u : Setup} {s : State}
    (h : Reachable (restrict Calm (step u)) (State.init u) s) : Separate s := by
  apply Owned.separate
  apply h.invariant Owned (owned_init u)
  intro s event t hreach hs hstep
  rcases restrict_eq_some.mp hstep with ⟨hcalm, hmove⟩
  exact hs.step (wired_of_reachable hreach.of_restrict) hcalm hmove

def reuse : List Event := oneConnect ++ [.complete 0 1 [] true, .peek, .handle 0, .endBatch,
  .submit 1, .complete 2 0 [] false, .peek, .handle 0, .endBatch, .submit 0]

theorem separate_one_reuse : ∃ s,
    Reachable (restrict Calm (step plainSetup)) (State.init plainSetup) s ∧
    s.calls = [⟨.recv, 1, some 1⟩, ⟨.shutdown, 1, some 1⟩, ⟨.close, 1, some 1⟩] ∧
      s.fds 5 = some 2 ∧ Separate s := by
  have hview : (run (restrict Calm (step plainSetup)) (State.init plainSetup)
      (reuse ++ [.complete 1 5 [] false, .peek, .handle 0])).map (fun s => (s.calls, s.fds 5)) =
        some ([⟨.recv, 1, some 1⟩, ⟨.shutdown, 1, some 1⟩, ⟨.close, 1, some 1⟩], some 2) := by
    decide +kernel
  rcases Reachable.of_view hview with ⟨s, hreach, hs⟩
  rw [Prod.mk.injEq] at hs
  exact ⟨s, hreach, hs.1, hs.2, separate_of_calm hreach⟩

/-- The `shutdown` makes the poll complete once more. The recv that is queued for it finds the
descriptor closed; by the time its completion is processed, the next client has it. -/
def latePoll : List Event := reuse ++ [.complete 0 16 [] true, .peek, .handle 0, .endBatch,
  .submit 1, .complete 2 (-9) [] false, .complete 1 5 [] false, .peek, .handle 0]

/-- The first connection is closed twice, and the second time it is the next connection that
is shut down and closed. -/
theorem late_poll_closes_next : ∃ s, Reachable (step plainSetup) (State.init plainSetup) s ∧
    s.calls = [⟨.recv, 1, some 1⟩, ⟨.shutdown, 1, some 1⟩, ⟨.close, 1, some 1⟩,
      ⟨.recv, 1, none⟩, ⟨.shutdown, 1, some 2⟩, ⟨.close, 1, some 2⟩] ∧
    closes s 1 = 2 ∧ ¬Separate s := by
  have hview : (run (step plainSetup) (State.init plainSetup) latePoll).map (fun s => s.calls) =
      some [⟨.recv, 1, some 1⟩, ⟨.shutdown, 1, some 1⟩, ⟨.close, 1, some 1⟩,
        ⟨.recv, 1, none⟩, ⟨.shutdown, 1, some 2⟩, ⟨.close, 1, some 2⟩] := by
    decide +kernel
  rcases Reachable.of_view hview with ⟨s, hreach, hcalls⟩
  have htwice : closes s 1 = 2 := by
    rw [closes, hcalls]
    rfl
  refine ⟨s, hreach, hcalls, htwice, fun hseparate => ?_⟩
  have honce := hseparate.once 1
  omega

end IoWrapper.EchoV3.Connections
