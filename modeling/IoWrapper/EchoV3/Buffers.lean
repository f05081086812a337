import IoWrapper.Core.Pool
import IoWrapper.EchoV3.Records

/-! The one buffer of a descriptor. A recv has it from when it is queued, and hands it on to
the send that answers it; nothing stops a completion of the poll in between from queueing
another recv. As long as none does, what a send sends is what its recv has received. -/
namespace IoWrapper.EchoV3.Buffers
open Core.Machine Core.Pool Server Records

def unanswered (cqe : Cqe) : Option Nat :=
  match cqe.entry.op with
  | .recv _ buf _ => some buf
  | .accept _ | .poll _ | .send .. => none

def busy (s : State) : List Nat :=
  (s.sq ++ s.inflight).filterMap (fun sqe => buffer sqe.op) ++ s.cq.filterMap unanswered

/-- At most one recv or send is pending on each buffer, and the sends that are completed have
sent the bytes of the recvs that they answer. -/
structure Orderly (s : State) : Prop where
  once : (busy s).Nodup
  echoes : ∀ sent ∈ s.sent, sent.transmitted = sent.answered

/-- A completion of a poll has made the server queue a recv on a buffer that is in use. -/
def overlapNote (u : Setup) (s : State) : Event → List Nat
  | .handle ret =>
    match s.batch with
    | cqe :: rest =>
      match cqe.entry.op, handleCqe u { s with batch := rest } cqe ret with
      | .poll fd, .ok _ => if fd ∈ busy s then [fd] else []
      | _, _ => []
    | [] => []
  | _ => []

/-- The bytes are where the kernel has stored them until they are sent. -/
structure Intact (s : State) : Prop where
  once : (busy s).Nodup
  sends : ∀ sqe ∈ s.sq ++ s.inflight, ∀ fd buf len, sqe.op = .send fd buf len →
    (s.bufs buf).take len = sqe.note.bytes
  recvs : ∀ cqe ∈ s.cq, ∀ fd buf len, cqe.entry.op = .recv fd buf len →
    (s.bufs buf).take cqe.res.toNat = cqe.note.bytes
  echoes : ∀ sent ∈ s.sent, sent.transmitted = sent.answered

def freed : Op → Option Nat
  | .send _ buf _ => some buf
  | .accept _ | .poll _ | .recv .. => none

section Moves

variable {u : Setup} {s t : State} {cqe : Cqe}

theorem busy_queue (op : Op) (note : Note) :
    (busy (s.queue u op note)).Perm ((buffer op).toList ++ busy s) := by
  cases hbuffer : buffer op with
  | none => simp [busy, State.queue, hbuffer]
  | some buf => simp [busy, State.queue, hbuffer]

theorem busy_seen (hcq : s.cq = cqe :: s.cq.tail) :
    (busy s).Perm ((unanswered cqe).toList ++ busy s.cqeSeen) := by
  have hhead : s.cq.filterMap unanswered =
      (unanswered cqe).toList ++ s.cq.tail.filterMap unanswered := by
    rw [hcq]
    cases hun : unanswered cqe <;> simp [hun]
  unfold busy
  rw [hhead]
  exact List.perm_append_comm_assoc ..

theorem busy_submit (count : Nat) : (busy (s.submit count)).Perm (busy s) := by
  have hmove : ((s.submit count).sq ++ (s.submit count).inflight).Perm (s.sq ++ s.inflight) := by
    simp only [State.submit]
    refine List.perm_append_comm.trans ?_
    rw [List.append_assoc, List.take_append_drop]
    exact List.perm_append_comm
  exact (hmove.filterMap _).append_right _

theorem uncompleted_perm {i : Nat} {sqe : Sqe} (h : s.inflight[i]? = some sqe) :
    (s.sq ++ s.inflight).Perm (sqe :: (s.sq ++ s.inflight.eraseIdx i)) :=
  ((perm_eraseIdx h).append_left _).trans List.perm_middle

theorem busy_complete {i : Nat} {sqe : Sqe} {res : Int} {data : List UInt8} {more : Bool}
    (hsqe : s.inflight[i]? = some sqe) (hpossible : s.Possible sqe res data more) :
    (busy s).Perm ((freed sqe.op).toList ++ busy (s.complete i sqe res data more)) := by
  have hmore := hpossible.2.2.2
  have hperm := ((uncompleted_perm hsqe).filterMap (fun sqe => buffer sqe.op)).append_right
    (s.cq.filterMap unanswered)
  cases hop : sqe.op with
  | accept | poll =>
    cases more with
    | true => simp [busy, State.complete, freed, unanswered, hop]
    | false =>
      simpa [busy, State.complete, freed, unanswered, hop, buffer, List.filterMap_append]
        using hperm
  | recv fd buf len =>
    have hno : more = false := by
      cases more with
      | true => simp [hop, Op.type] at hmore
      | false => rfl
    refine hperm.trans ?_
    subst hno
    simp only [busy, State.complete, freed, hop, buffer, List.filterMap_cons, Option.toList_none,
      List.nil_append, List.filterMap_append, Bool.false_eq_true, if_false, List.cons_append,
      List.filterMap_nil, unanswered]
    rw [← List.append_assoc]
    exact List.perm_append_singleton .. |>.symm
  | send fd buf len =>
    have hno : more = false := by
      cases more with
      | true => simp [hop, Op.type] at hmore
      | false => rfl
    subst hno
    simpa [busy, State.complete, freed, unanswered, hop, buffer, List.filterMap_append]
      using hperm

theorem Intact.orderly (h : Intact s) : Orderly s := ⟨h.once, h.echoes⟩

theorem Intact.of_subset (h : Intact s) (honce : (busy t).Nodup) (hbufs : t.bufs = s.bufs)
    (hsqe : ∀ sqe ∈ t.sq ++ t.inflight, buffer sqe.op ≠ none → sqe ∈ s.sq ++ s.inflight)
    (hcq : ∀ cqe ∈ t.cq, cqe ∈ s.cq) (hsent : t.sent = s.sent) : Intact t := by
  refine ⟨honce, ?_, ?_, by rw [hsent]; exact h.echoes⟩
  · intro sqe hmem fd buf len hop
    rw [hbufs]
    exact h.sends sqe (hsqe sqe hmem (by simp [hop, buffer])) fd buf len hop
  · intro cqe hmem fd buf len hop
    rw [hbufs]
    exact h.recvs cqe (hcq cqe hmem) fd buf len hop

theorem mem_queue {op : Op} {note : Note} {sqe : Sqe}
    (h : sqe ∈ (s.queue u op note).sq ++ (s.queue u op note).inflight) :
    sqe = ⟨op, op.fixed u, ⟨op.table, op.fd⟩, note⟩ ∨ sqe ∈ s.sq ++ s.inflight := by
  simp only [State.queue, List.mem_append, List.mem_singleton] at h ⊢
  tauto

theorem Intact.queue (h : Intact s) (op : Op) (note : Note)
    (hfree : ∀ buf ∈ buffer op, buf ∉ busy s)
    (hbytes : ∀ fd buf len, op = .send fd buf len → (s.bufs buf).take len = note.bytes) :
    Intact (s.queue u op note) := by
  refine ⟨?_, ?_, h.recvs, h.echoes⟩
  · rw [(busy_queue op note).nodup_iff]
    cases hbuffer : buffer op with
    | none => exact h.once
    | some buf => exact List.nodup_cons.mpr ⟨hfree buf hbuffer, h.once⟩
  · intro sqe hmem fd buf len hop
    rcases mem_queue hmem with rfl | hmem
    · exact hbytes fd buf len hop
    · exact h.sends sqe hmem fd buf len hop

theorem Intact.cqeSeen (h : Intact s) (hcq : s.cq = cqe :: s.cq.tail) : Intact s.cqeSeen := by
  refine h.of_subset ?_ rfl (fun _ hmem _ => hmem) (fun _ hmem => List.mem_of_mem_tail hmem) rfl
  have hnodup := (busy_seen hcq).nodup_iff.mp h.once
  exact (List.nodup_append.mp hnodup).2.1

theorem Intact.free_of_seen (h : Intact s) (hcq : s.cq = cqe :: s.cq.tail) {buf : Nat}
    (hbuf : unanswered cqe = some buf) : buf ∉ busy s.cqeSeen := by
  have hnodup := (busy_seen hcq).nodup_iff.mp h.once
  rw [hbuf, Option.toList_some, List.singleton_append, List.nodup_cons] at hnodup
  exact hnodup.1

theorem Intact.registered {mid : State} {fd : Nat} (h : Intact s) (hmid : Registered u s fd mid) :
    Intact mid := by
  cases hmid with
  | unused | kept => exact h
  | filled => exact ⟨h.once, h.sends, h.recvs, h.echoes⟩

theorem Intact.answered (h : Intact s) (hcq : s.cq = cqe :: s.cq.tail)
    (ht : Reaction u s cqe t) (hfree : ∀ fd, cqe.entry.op = .poll fd → fd ∉ busy s) :
    Intact t := by
  have hseen := h.cqeSeen hcq
  have hmem : cqe ∈ s.cq := by
    rw [hcq]
    exact List.mem_cons_self ..
  cases ht with
  | accepted hop hopened hmid =>
    have hpolling := (hseen.registered hmid).queue (u := u) (.poll cqe.res.toNat)
      ⟨cqe.note.conn, []⟩ nofun nofun
    exact hpolling.queue _ _ nofun nofun
  | hungUp hop hres => exact ⟨hseen.once, hseen.sends, hseen.recvs, hseen.echoes⟩
  | @received fd len hop hres =>
    apply hseen.queue
    · intro buf hbuf
      cases hbuf
      exact h.free_of_seen hcq (by simp [unanswered, hop])
    · intro fd' buf' len' heq
      cases heq
      exact h.recvs cqe hmem fd fd len hop
  | sent hop => exact hseen
  | @ready fd hop =>
    -- Nothing but the hypothesis keeps another operation off the buffer here.
    apply hseen.queue
    · intro buf hbuf
      cases hbuf
      have hperm := busy_seen hcq
      simp only [unanswered, hop, Option.toList_none, List.nil_append] at hperm
      exact fun hin => hfree fd hop (hperm.mem_iff.mpr hin)
    · exact nofun

theorem Intact.other {i : Nat} {sqe : Sqe} {buf : Nat} (h : Intact s)
    (hsqe : s.inflight[i]? = some sqe) (hbuf : buffer sqe.op = some buf) :
    (∀ sqe' ∈ s.sq ++ s.inflight.eraseIdx i, buffer sqe'.op ≠ some buf) ∧
      ∀ cqe ∈ s.cq, unanswered cqe ≠ some buf := by
  have hperm := ((uncompleted_perm hsqe).filterMap (fun sqe => buffer sqe.op)).append_right
    (s.cq.filterMap unanswered)
  have hnodup := hperm.nodup_iff.mp h.once
  rw [List.filterMap_cons, hbuf] at hnodup
  have hnot := (List.nodup_cons.mp hnodup).1
  constructor
  · intro sqe' hmem heq
    exact hnot (List.mem_append_left _ (List.mem_filterMap.mpr ⟨sqe', hmem, heq⟩))
  · intro cqe hmem heq
    exact hnot (List.mem_append_right _ (List.mem_filterMap.mpr ⟨cqe, hmem, heq⟩))

theorem mem_uncompleted {i : Nat} {sqe sqe' : Sqe} {res : Int} {data : List UInt8} {more : Bool}
    (h : sqe' ∈ (s.complete i sqe res data more).sq ++ (s.complete i sqe res data more).inflight) :
    sqe' ∈ s.sq ++ s.inflight := by
  rcases List.mem_append.mp h with hsq | hin
  · exact List.mem_append_left _ hsq
  · apply List.mem_append_right
    cases more with
    | true => exact hin
    | false => exact List.mem_of_mem_eraseIdx hin

theorem store_of_ne {data : List UInt8} {op : Op} {buf : Nat}
    (h : ∀ fd len, op ≠ .recv fd buf len) : s.store data op buf = s.bufs buf := by
  cases op with
  | accept | poll | send => rfl
  | recv fd buf' len =>
    refine Function.update_of_ne ?_ ..
    rintro rfl
    exact h fd len rfl

theorem eq_false_of_possible {sqe : Sqe} {res : Int} {data : List UInt8} {more : Bool}
    (h : s.Possible sqe res data more) (hop : sqe.op.type ≠ .pollInReady) : more = false :=
  Bool.eq_false_iff.mpr fun hmore => hop (h.2.2.2 hmore)

theorem Intact.stored {i : Nat} {sqe : Sqe} {res : Int} {data : List UInt8} {more : Bool}
    (h : Intact s) (hsqe : s.inflight[i]? = some sqe)
    (hpossible : s.Possible sqe res data more) (buf : Nat)
    (hbuf : (∃ sqe' ∈ (s.complete i sqe res data more).sq ++
        (s.complete i sqe res data more).inflight, buffer sqe'.op = some buf) ∨
      ∃ cqe ∈ s.cq, unanswered cqe = some buf) :
    s.store data sqe.op buf = s.bufs buf := by
  apply store_of_ne
  intro fd len hop
  have hother := h.other hsqe (by rw [hop]; rfl : buffer sqe.op = some buf)
  cases eq_false_of_possible hpossible (by simp [hop, Op.type])
  rcases hbuf with ⟨sqe', hmem, heq⟩ | ⟨cqe, hmem, heq⟩
  · exact hother.1 sqe' hmem heq
  · exact hother.2 cqe hmem heq

theorem Intact.completed {i : Nat} {sqe : Sqe} {res : Int} {data : List UInt8} {more : Bool}
    (h : Intact s) (hsqe : s.inflight[i]? = some sqe) (hpossible : s.Possible sqe res data more) :
    Intact (s.complete i sqe res data more) := by
  have hcarries := hpossible.2.2.1
  constructor
  case once =>
    exact (List.nodup_append.mp ((busy_complete hsqe hpossible).nodup_iff.mp h.once)).2.1
  case sends =>
    intro sqe' hmem fd buf len hop
    have hbufs := h.stored hsqe hpossible buf (.inl ⟨sqe', hmem, by simp [hop, buffer]⟩)
    exact (congrArg _ hbufs).trans (h.sends sqe' (mem_uncompleted hmem) fd buf len hop)
  case recvs =>
    intro cqe hmem fd buf len hop
    rcases List.mem_append.mp hmem with hmem | hmem
    · have hbufs := h.stored hsqe hpossible buf (.inr ⟨cqe, hmem, by simp [unanswered, hop]⟩)
      exact (congrArg _ hbufs).trans (h.recvs cqe hmem fd buf len hop)
    · cases List.mem_singleton.mp hmem
      dsimp only at hop
      rw [hop] at hcarries
      simp only [State.complete, State.store, hop, Function.update_self]
      rw [← hcarries.1, List.take_left]
  case echoes =>
    intro sent hmem
    rcases List.mem_append.mp hmem with hmem | hmem
    · exact h.echoes sent hmem
    · cases hop : sqe.op with
      | accept | poll | recv => simp [State.transmit, hop] at hmem
      | send fd buf len =>
        have hbytes := h.sends sqe
          (List.mem_append_right _ (List.mem_of_getElem? hsqe)) fd buf len hop
        rw [hop] at hcarries
        have hle : res ≤ len := hcarries.2
        simp only [State.transmit, hop, List.mem_singleton] at hmem
        rw [hmem, ← hbytes, List.take_take, Nat.min_eq_left (by omega)]

theorem overlapNote_answered {rest : List Cqe} {ret : Int} (hbatch : s.batch = cqe :: rest)
    (hok : handleCqe u { s with batch := rest } cqe ret = .ok t) {fd : Nat} :
    fd ∈ overlapNote u s (.handle ret) ↔ cqe.entry.op = .poll fd ∧ fd ∈ busy s := by
  simp only [overlapNote, hbatch, hok]
  cases hop : cqe.entry.op with
  | accept | recv | send => simp
  | poll fd' =>
    by_cases hbusy : fd' ∈ busy s
    · simp only [hbusy, if_true, List.mem_singleton, Op.poll.injEq]
      constructor
      · rintro rfl
        exact ⟨rfl, hbusy⟩
      · exact fun heq => heq.1.symm
    · simp only [hbusy, if_false, List.not_mem_nil, Op.poll.injEq, false_iff]
      rintro ⟨rfl, hin⟩
      exact hbusy hin

theorem Intact.step {event : Event} (h : Intact s) (hwired : Wired u s)
    (hstep : step u s event = some t) (hnote : overlapNote u s event = []) : Intact t := by
  cases step_sound hstep with
  | @submitted count hpc =>
    have hperm := busy_submit (s := s) count
    refine h.of_subset (hperm.nodup_iff.mpr h.once) rfl ?_ (fun _ hmem => hmem) rfl
    intro sqe hmem _
    rw [← List.take_append_drop count s.sq]
    simp only [State.submit, List.mem_append] at hmem ⊢
    tauto
  | failed | stopped | ended | peeked => exact ⟨h.once, h.sends, h.recvs, h.echoes⟩
  | @answered cqe rest ret _ hpc hbatch hok hanswered =>
    have hpart : Intact { s with batch := rest } := ⟨h.once, h.sends, h.recvs, h.echoes⟩
    apply hpart.answered (hwired.cq_cons hbatch) (hwired.reaction hbatch hanswered)
    intro fd hop hbusy
    have hmem := (overlapNote_answered hbatch hok).mpr ⟨hop, hbusy⟩
    rw [hnote] at hmem
    cases hmem
  | completed hsqe hpossible => exact h.completed hsqe hpossible

theorem not_orderly_of_overlap {event : Event} {fd : Nat} (hwired : Wired u s)
    (hstep : step u s event = some t) (hfd : fd ∈ overlapNote u s event) : ¬Orderly t := by
  cases step_sound hstep with
  | submitted | failed | ended | peeked | completed => cases hfd
  | stopped hpc hbatch hstop =>
    simp only [overlapNote, hbatch, hstop] at hfd
    split at hfd <;> simp_all
  | @answered cqe rest ret _ hpc hbatch hok hanswered =>
    rcases (overlapNote_answered hbatch hok).mp hfd with ⟨hop, hbusy⟩
    have hcq := hwired.cq_cons hbatch
    cases hwired.reaction hbatch hanswered with
    | ready hop' =>
      cases hop.symm.trans hop'
      intro horderly
      have hseen := busy_seen (s := { s with batch := rest }) hcq
      simp only [unanswered, hop, Option.toList_none, List.nil_append] at hseen
      have hnodup := (busy_queue _ _).nodup_iff.mp horderly.once
      exact (List.nodup_cons.mp hnodup).1 (hseen.mem_iff.mp hbusy)
    | accepted hop' | hungUp hop' | received hop' | sent hop' => cases hop.symm.trans hop'

end Moves

theorem intact_init (u : Setup) : Intact (State.init u) := by
  have hblank : Intact (State.listening u) := by
    unfold State.listening
    split <;> exact ⟨List.nodup_nil, fun sqe hsqe => absurd hsqe List.not_mem_nil,
      fun cqe hcqe => absurd hcqe List.not_mem_nil, fun sent hsent => absurd hsent List.not_mem_nil⟩
  unfold State.init
  cases hadd : addAccept u (State.listening u) u.sockListenFd with
  | ok s =>
    rcases addAccept_eq_ok hadd with ⟨-, -, rfl⟩
    exact hblank.queue _ _ nofun nofun
  | error stop => exact ⟨hblank.once, hblank.sends, hblank.recvs, hblank.echoes⟩

/-- At every moment at most one recv or send is pending on each buffer, and the sends have
sent what their recvs received, just if no completion of a poll was processed while a recv or
a send was pending on its descriptor. -/
theorem orderly_iff_no_overlap {u : Setup} {events : List Event} {s : State} {overlaps : List Nat}
    (hrun : run (record (overlapNote u) (step u)) (State.init u, []) events =
      some (s, overlaps)) :
    Always (record (overlapNote u) (step u)) (State.init u, []) events (fun t => Orderly t.1) ↔
      overlaps = [] := by
  apply always_record_iff Intact hrun (intact_init u)
  · exact fun s hs => hs.orderly
  · exact fun s event t hreach hs hstep hnote => hs.step (wired_of_reachable hreach) hstep hnote
  · intro s event t hreach hs hstep hnote
    rcases List.exists_mem_of_ne_nil _ hnote with ⟨fd, hfd⟩
    exact not_orderly_of_overlap (wired_of_reachable hreach) hstep hfd

def oneMessage : List Event := oneConnect ++ [.complete 0 1 [] true, .peek, .handle 0, .endBatch,
  .submit 1, .complete 2 2 [104, 105] false, .peek, .handle 0, .endBatch,
  .submit 1, .complete 2 2 [] false, .peek, .handle 0, .endBatch]

theorem orderly_one_message : ∃ t : State × List Nat, t.1.sent = [⟨[104, 105], [104, 105]⟩] ∧
    run (record (overlapNote plainSetup) (step plainSetup)) (State.init plainSetup, [])
      oneMessage = some t ∧
    Always (record (overlapNote plainSetup) (step plainSetup)) (State.init plainSetup, [])
      oneMessage (fun t => Orderly t.1) := by
  have hview : (run (record (overlapNote plainSetup) (step plainSetup))
      (State.init plainSetup, []) oneMessage).map (fun t => (t.1.sent, t.2)) =
        some ([⟨[104, 105], [104, 105]⟩], []) := by
    decide +kernel
  rcases Option.map_eq_some_iff.mp hview with ⟨⟨s, overlaps⟩, hrun, ht⟩
  rw [Prod.mk.injEq] at ht
  exact ⟨(s, overlaps), ht.1, hrun, (orderly_iff_no_overlap hrun).mpr ht.2⟩

def twoPolls : List Event := oneConnect ++ [.complete 0 1 [] true, .peek, .handle 0, .endBatch,
  .submit 1, .complete 2 2 [104, 105] false, .complete 0 1 [] true, .peek, .handle 0, .handle 0,
  .endBatch, .submit 2, .complete 3 2 [111, 107] false, .complete 2 2 [] false]

/-- A send and a recv are pending on one buffer, and the send sends the bytes of the recv
instead of those that it answers. -/
theorem second_poll_overwrites : ∃ s, Reachable (step plainSetup) (State.init plainSetup) s ∧
    s.sent = [⟨[104, 105], [111, 107]⟩] ∧ ¬Orderly s := by
  have hview : (run (step plainSetup) (State.init plainSetup) twoPolls).map (fun s => s.sent) =
      some [⟨[104, 105], [111, 107]⟩] := by
    decide +kernel
  rcases Reachable.of_view hview with ⟨s, hreach, hsent⟩
  refine ⟨s, hreach, hsent, fun horderly => ?_⟩
  have hsame := horderly.echoes ⟨[104, 105], [111, 107]⟩ (by simp [hsent])
  simp at hsame

end IoWrapper.EchoV3.Buffers
