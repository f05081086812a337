import IoWrapper.EchoV2.Records

/-! Where the bytes of a send come from. The kernel stores what it receives in a buffer of
the pool; the server sends from the element of its table of pointers that has the number of
the buffer, which nothing has been received into, and the buffer is back in the ring before
the send is submitted. -/
namespace IoWrapper.EchoV2.Sources
open Core.Machine Core.BufRing Server Records
open EchoV1.Server (Setup)

/-- A READ completion with bytes, and the entry that is last in the queue after it. -/
structure Echo where
  cqe : Cqe
  sqe : Option Sqe
deriving DecidableEq

def answer (u : Setup) (s : State) (cqe : Cqe) (ret : Int) : List Echo :=
  match handleCqe u s.next cqe ret with
  | .ok t => [⟨cqe, t.sq.getLast?⟩]
  | .error _ => []

/-- The READ completions with bytes that the server has an entry for. -/
def echoNote (u : Setup) (s : State) : Event → List Echo
  | .handle ret =>
    match s.cq with
    | cqe :: _ => if cqe.entry.op.type = .read ∧ 0 < cqe.res then answer u s cqe ret else []
    | [] => []
  | _ => []

/-- A send goes out to the descriptor of the recv, takes as many bytes as it has received,
from where the kernel has stored them, and the kernel does not have the buffer again as long
as the send is not completed. -/
def Faithful (s : State) (echo : Echo) : Prop :=
  ∃ sqe, echo.sqe = some sqe ∧
    sqe.op = .send echo.cqe.entry.op.fd (.pool echo.cqe.bufId) echo.cqe.res.toNat ∧
    (sqe ∈ s.sq ++ s.inflight →
      ∀ buf ∈ s.bufRing.available nrBufs, buf.addr ≠ .pool echo.cqe.bufId)

/-- What the server does instead. -/
def FromTable (echo : Echo) : Prop :=
  ∃ sqe, echo.sqe = some sqe ∧
    sqe.op = .send echo.cqe.entry.op.fd (.table echo.cqe.bufId) echo.cqe.res.toNat

theorem FromTable.not_faithful {s : State} {echo : Echo} (h : FromTable echo) :
    ¬Faithful s echo := by
  rintro ⟨sqe, hsqe, hop, -⟩
  rcases h with ⟨sqe', hsqe', hop'⟩
  cases hsqe.symm.trans hsqe'
  cases hop.symm.trans hop'

section Moves

variable {u : Setup} {s : State} {cqe : Cqe}

theorem fromTable_of_answered {t : State}
    (hconns : s.next.conns cqe.entry.userData = ⟨cqe.entry.op.fd, cqe.entry.op.type⟩)
    (htype : cqe.entry.op.type = .read) (hres : 0 < cqe.res) (ht : Answered u s.next cqe t) :
    FromTable ⟨cqe, t.sq.getLast?⟩ := by
  cases ht with
  | accepted hother | sent hother =>
    rw [hconns] at hother
    cases htype.symm.trans hother
  | hungUp _ hle => omega
  | received =>
    rw [hconns]
    exact ⟨_, List.getLast?_concat .., rfl⟩
  | ignored hother =>
    rw [hconns] at hother
    simp [htype] at hother

theorem fromTable_of_note {event : Event} {echo : Echo}
    (hreach : Reachable (step u) (State.init u) s) (hmem : echo ∈ echoNote u s event) :
    FromTable echo := by
  cases event with
  | submit | submitError | peek | endBatch | complete => cases hmem
  | handle ret =>
    cases hcq : s.cq with
    | nil =>
      simp only [echoNote, hcq] at hmem
      cases hmem
    | cons cqe rest =>
      simp only [echoNote, hcq] at hmem
      split at hmem
      · rename_i hread
        cases hok : handleCqe u s.next cqe ret with
        | ok t =>
          simp only [answer, hok] at hmem
          cases List.mem_singleton.mp hmem
          have hconns := completion_finds_record hreach hcq
          exact fromTable_of_answered hconns hread.1 hread.2 (handleCqe_eq_ok hok)
        | error stop =>
          simp only [answer, hok] at hmem
          cases hmem
      · cases hmem

end Moves

theorem fromTable_of_reachable {u : Setup} {t : State × List Echo}
    (h : Reachable (record (echoNote u) (step u)) (State.init u, []) t) :
    ∀ echo ∈ t.2, FromTable echo := by
  apply h.invariant (fun t => ∀ echo ∈ t.2, FromTable echo)
  · exact fun echo hecho => absurd hecho List.not_mem_nil
  · intro s event t hreach hs hstep echo hecho
    rw [(record_eq_some.mp hstep).2] at hecho
    rcases List.mem_append.mp hecho with hecho | hecho
    · exact hs echo hecho
    · exact fromTable_of_note hreach.of_record hecho

/-- The sends of a run transmit what has been received just if nothing has been received. -/
theorem faithful_iff_silent {u : Setup} {t : State × List Echo}
    (h : Reachable (record (echoNote u) (step u)) (State.init u, []) t) :
    (∀ echo ∈ t.2, Faithful t.1 echo) ↔ t.2 = [] := by
  constructor
  · intro hall
    rw [List.eq_nil_iff_forall_not_mem]
    intro echo hecho
    exact (fromTable_of_reachable h echo hecho).not_faithful (hall echo hecho)
  · intro hnil
    rw [hnil]
    exact fun echo hecho => absurd hecho List.not_mem_nil

def oneHangup : List Event :=
  oneConnect ++ [.submit 2, .complete 0 0 false, .peek, .handle 0, .endBatch]

theorem faithful_one_hangup : ∃ t : State × List Echo, t.1.closed = [5] ∧
    Reachable (record (echoNote plainSetup) (step plainSetup)) (State.init plainSetup, []) t ∧
      ∀ echo ∈ t.2, Faithful t.1 echo := by
  have hview : (run (record (echoNote plainSetup) (step plainSetup))
      (State.init plainSetup, []) oneHangup).map (fun t => (t.1.closed, t.2)) = some ([5], []) := by
    decide +kernel
  rcases Reachable.of_view hview with ⟨t, hreach, ht⟩
  rw [Prod.mk.injEq] at ht
  exact ⟨t, ht.1, hreach, (faithful_iff_silent hreach).mpr ht.2⟩

/-- The four bytes are in the first buffer of the pool. The send that is queued for them
starts at the first pointer of the table, and the ring has the buffer again. -/
theorem send_from_pointers : ∃ t : State × List Echo,
    Reachable (record (echoNote plainSetup) (step plainSetup)) (State.init plainSetup, []) t ∧
      t.1.sq = [⟨.send 5 (.table 0) 4, false, 5⟩] ∧
      ⟨.pool 0, 2046, 0⟩ ∈ t.1.bufRing.available nrBufs ∧
      ∃ echo ∈ t.2, echo.cqe.used = some ⟨.pool 0, 2046, 0⟩ ∧ echo.cqe.res = 4 ∧
        ¬Faithful t.1 echo := by
  have hview : (run (record (echoNote plainSetup) (step plainSetup))
      (State.init plainSetup, []) oneMessage).map
        (fun t => (t.1.sq, t.1.bufRing.slots 0, t.1.bufRing.head, t.1.bufRing.tail, t.2)) =
      some ([⟨.send 5 (.table 0) 4, false, 5⟩], ⟨.pool 0, 2046, 0⟩, 1, 1025,
        [⟨⟨⟨.recv 5 2046, false, 5⟩, 4, some ⟨.pool 0, 2046, 0⟩⟩,
          some ⟨.send 5 (.table 0) 4, false, 5⟩⟩]) := by
    decide +kernel
  rcases Reachable.of_view hview with ⟨t, hreach, ht⟩
  simp only [Prod.mk.injEq] at ht
  rcases ht with ⟨hsq, hslot, hhead, htail, hecho⟩
  refine ⟨t, hreach, hsq, ?_, ?_⟩
  · apply SlotRing.mem_window.mpr
    refine ⟨1024, by omega, ?_, hslot⟩
    rw [SlotRing.count, hhead, htail]
    decide
  · rw [hecho]
    refine ⟨_, List.mem_singleton_self _, rfl, rfl, ?_⟩
    exact FromTable.not_faithful ⟨_, rfl, rfl⟩

end IoWrapper.EchoV2.Sources
