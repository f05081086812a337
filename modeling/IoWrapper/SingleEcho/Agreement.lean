import IoWrapper.Core.Collections
import IoWrapper.MultiEcho.Registry
import IoWrapper.SingleEcho.Server

/-! The two event loops on the same completions. What a loop has queued is determined by what
it has processed, and the loops differ in one answer: to a receive that fails with `EBADF`,
which only the loop on one ring answers with a close. -/
namespace IoWrapper.SingleEcho.Agreement
open Core.Collections Core.Machine Core.Traffic Core.Registry GoEcho.Operations

def history (handled : List Cqe) : List (Request × Int) :=
  handled.map fun cqe => (cqe.entry.op.request, cqe.res)

section Histories

variable {answer : Request × Int → List Request} {lfd : Nat} {queued : List Op}
  {handled : List Cqe}

structure Answered (answer : Request × Int → List Request) (lfd : Nat) (started : Bool)
    (queued : List Op) (handled : List Cqe) : Prop where
  queued : queued.map Op.request =
    (if started then [.accept lfd] else []) ++ (history handled).flatMap answer
  handled : started = false → handled = []

theorem Answered.start {ops : List Op} (h : Answered answer lfd false queued handled)
    (hops : ops.map Op.request = [.accept lfd]) :
    Answered answer lfd true (queued ++ ops) handled := by
  have hqueued := h.queued
  refine ⟨?_, nofun⟩
  rw [h.handled rfl] at hqueued ⊢
  rw [List.map_append, hqueued, hops]
  rfl

theorem Answered.turn {cqe : Cqe} {ops : List Op} (h : Answered answer lfd true queued handled)
    (hops : ops.map Op.request = answer (cqe.entry.op.request, cqe.res)) :
    Answered answer lfd true (queued ++ ops) (handled ++ [cqe]) := by
  refine ⟨?_, nofun⟩
  have hhistory : history (handled ++ [cqe]) =
      history handled ++ [(cqe.entry.op.request, cqe.res)] := List.map_append
  rw [List.map_append, h.queued, hops, hhistory, List.flatMap_append, List.flatMap_singleton,
    List.append_assoc]

end Histories

section Multi
open MultiEcho.Server MultiEcho.Registry

abbrev multiAnswer (lfd : Nat) (completion : Request × Int) : List Request :=
  answers lfd completion.2 completion.1

theorem acts_lfd {id : Nat} {sh sh' : Shared} {l l' : Loop} {action : Action}
    (h : Acts id sh l action sh' l') : sh'.lfd = sh.lfd := by
  cases h with
  | started | startPanicked | submitted | submitFailed | waitFailed | unknown | unsupported
  | panicked | handled => rfl
  | completed => exact completed_lfd ..

abbrev LoopAnswered (lfd : Nat) (l : Loop) : Prop :=
  Answered (multiAnswer lfd) lfd (l.pc ≠ .created) l.queued l.handled

theorem answered_act {id : Nat} {sh sh' : Shared} {l l' : Loop} {action : Action}
    (hregistered : Registered l l.ring.pending) (h : LoopAnswered sh.lfd l)
    (hact : Acts id sh l action sh' l') : LoopAnswered sh.lfd l' := by
  unfold LoopAnswered at h ⊢
  cases hact with
  | started hpc hproduce =>
    rcases produce_eq_ok hproduce with ⟨prepared, hprepared, -, rfl⟩
    cases hprepared
    rw [hpc] at h
    exact h.start rfl
  | startPanicked | unsupported | panicked | completed => exact h
  | submitted hpc | submitFailed hpc | waitFailed hpc | unknown hpc =>
    rw [hpc] at h
    exact h
  | handled hpc hcq hlookup hreact hproduce =>
    rcases turned_of_handled hregistered hcq hlookup hreact hproduce with ⟨sqes, hturned⟩
    rw [hturned.queued, hturned.handled, hturned.pc]
    rw [hpc] at h
    exact h.turn (by rw [List.map_map]; exact hturned.requests)

theorem loopAnswered_of_reachable {n lfd : Nat} {s : MultiEcho.Server.State n}
    (h : Reachable MultiEcho.Server.step (.init n lfd) s) (id : Fin n) :
    LoopAnswered lfd (s.loops id) := by
  suffices hall : s.shared.lfd = lfd ∧ ∀ id, LoopAnswered lfd (s.loops id) from hall.2 id
  apply h.invariant fun s => s.shared.lfd = lfd ∧ ∀ id, LoopAnswered lfd (s.loops id)
  · exact ⟨rfl, fun id => ⟨rfl, fun _ => rfl⟩⟩
  · rintro s event t hreach ⟨rfl, hs⟩ hstep
    rcases MultiEcho.Server.step_sound hstep with ⟨-, sh, l, hacts, rfl⟩
    refine ⟨acts_lfd hacts, fun id => ?_⟩
    dsimp only
    by_cases heq : id = event.id
    · rw [heq, Function.update_self]
      exact answered_act (registered_of_reachable hreach event.id) (hs event.id) hacts
    · rw [Function.update_of_ne heq]
      exact hs id

end Multi

section Single
open Server

def singleAnswer (lfd : Nat) (completion : Request × Int) : List Request :=
  calls (react lfd) completion.1 completion.2

/-- The errno is compared with a result that is not positive, so that it never matters. -/
theorem react_unread {lfd cfd : Nat} {res : Int} (h : res ≤ 0) :
    react lfd (Request.recv cfd).info res = .ok [.close cfd] := by
  have hne : res ≠ ebadf := by
    unfold ebadf
    omega
  simp only [react, Request.info, if_pos h, if_pos hne]

theorem singleAnswer_unread {lfd cfd : Nat} {res : Int} (h : res ≤ 0) :
    singleAnswer lfd (.recv cfd, res) = [.close cfd] :=
  calls_eq (react_unread h)

theorem singleAnswer_received {lfd cfd : Nat} {res : Int} (h : 0 < res) :
    singleAnswer lfd (.recv cfd, res) = [.send cfd res.toNat] :=
  calls_eq (if_neg (Int.not_le.mpr h))

theorem react_info (lfd : Nat) (op : Op) (res : Int) :
    react lfd op.info res = .ok (singleAnswer lfd (op.request, res)) := by
  have hok : ∃ requests, react lfd op.request.info res = .ok requests := by
    cases op.request with
    | accept fd =>
      simp only [react, Request.info]
      split <;> exact ⟨_, rfl⟩
    | recv fd =>
      by_cases hres : res ≤ 0
      · exact ⟨_, react_unread hres⟩
      · exact ⟨_, if_neg hres⟩
    | send | close => exact ⟨_, rfl⟩
  rcases hok with ⟨requests, hreact⟩
  rw [Op.info, hreact, singleAnswer, calls_eq hreact]

/-- The operations that are still to be processed point to their `EventInfo`. -/
def Pointing (heap : Nat → EventInfo) (pending : List Sqe) : Prop :=
  ∀ sqe ∈ pending, heap sqe.userData = sqe.op.info

theorem Pointing.perm {heap : Nat → EventInfo} {pending pending' : List Sqe}
    (h : Pointing heap pending) (hperm : pending'.Perm pending) : Pointing heap pending' :=
  fun sqe hsqe => h sqe (hperm.mem_iff.mp hsqe)

/-- What the calls have queued, if they have not overwritten any `EventInfo` in use. -/
structure Called (requests : List Request) (s next : State) : Prop where
  reused : s.reused = false
  lfd : next.lfd = s.lfd
  handled : next.handled = s.handled
  cq : next.ring.cq = s.ring.cq
  queued : ∃ ops, ops.map Op.request = requests ∧ next.queued = s.queued ++ ops
  pointing : Pointing s.heap s.ring.seen.pending → Pointing next.heap next.ring.seen.pending

theorem produce_called {s next : State} {request : Request} {userData : Nat}
    (h : s.produce request userData = .ok next) (hkept : next.reused = false) :
    Called [request] s next := by
  rcases produce_eq_ok h with ⟨prepared, hprepared, rfl⟩
  rcases prepare_eq_ok hprepared with ⟨hrequest, hinfo, -⟩
  simp only [State.produced, Bool.or_eq_false_iff, decide_eq_false_iff_not] at hkept
  refine ⟨hkept.1, rfl, rfl, rfl, ⟨[prepared.op], by rw [List.map_singleton, hrequest], rfl⟩, ?_⟩
  intro hpointing sqe hsqe
  have hmem := (IoRing.pending_push s.ring.seen ⟨prepared.op, userData⟩).mem_iff.mp hsqe
  dsimp only [State.produced]
  rcases List.mem_cons.mp hmem with rfl | hmem
  · rw [Function.update_self, hinfo]
  · rw [Function.update_of_ne]
    · exact hpointing sqe hmem
    · intro heq
      apply hkept.2
      rw [← heq]
      exact List.mem_map_of_mem hmem

theorem Called.trans {front back : List Request} {s middle next : State}
    (h : Called front s middle) (h' : Called back middle next) : Called (front ++ back) s next := by
  rcases h.queued with ⟨ops, hops, hqueued⟩
  rcases h'.queued with ⟨ops', hops', hqueued'⟩
  refine ⟨h.reused, h'.lfd.trans h.lfd, h'.handled.trans h.handled, h'.cq.trans h.cq,
    ⟨ops ++ ops', ?_, ?_⟩, h'.pointing ∘ h.pointing⟩
  · rw [List.map_append, hops, hops']
  · rw [hqueued', hqueued, List.append_assoc]

theorem produceEach_called {s next : State} {requests : List Request} {addresses : List Nat}
    (h : produceEach State.produce s requests addresses = .ok next)
    (hkept : next.reused = false) : Called requests s next := by
  induction requests generalizing s addresses with
  | nil =>
    cases h
    exact ⟨hkept, rfl, rfl, rfl, ⟨[], rfl, by rw [List.append_nil]⟩, id⟩
  | cons request requests ih =>
    cases addresses with
    | nil => cases h
    | cons userData addresses =>
      rcases bind_eq_ok.mp h with ⟨middle, hmiddle, hrest⟩
      have hcalled := ih hrest
      exact (produce_called hmiddle hcalled.reused).trans hcalled

structure Intact (lfd : Nat) (s : State) : Prop where
  lfd : s.lfd = lfd
  created : s.pc = .created → s.ring.pending = []
  pointing : Pointing s.heap s.ring.pending
  answered : Answered (singleAnswer s.lfd) s.lfd (s.pc ≠ .created) s.queued s.handled

theorem Intact.start {lfd : Nat} {s next : State} (h : Intact lfd s) (hpc : s.pc = .created)
    (hcalled : Called [.accept s.lfd] s next) : Intact lfd { next with pc := .head } := by
  have hnone := h.created hpc
  have hcq : s.ring.cq = [] := List.map_eq_nil_iff.mp (List.append_eq_nil_iff.mp hnone).2
  have hanswered := h.answered
  rcases hcalled.queued with ⟨ops, hops, hqueued⟩
  refine ⟨hcalled.lfd.trans h.lfd, nofun, ?_, ?_⟩
  · have hpointing := hcalled.pointing (by
      intro sqe hsqe
      rw [IoRing.seen_of_cq_nil hcq, hnone] at hsqe
      cases hsqe)
    rw [IoRing.seen_of_cq_nil (hcalled.cq.trans hcq)] at hpointing
    exact hpointing
  · dsimp only
    rw [hpc] at hanswered
    rw [hcalled.lfd, hcalled.handled, hqueued]
    exact hanswered.start hops

theorem Intact.turn {lfd : Nat} {s next : State} {cqe : Cqe} {rest : List Cqe}
    {requests : List Request} (h : Intact lfd s) (hpc : s.pc = .waiting)
    (hcq : s.ring.cq = cqe :: rest)
    (hreact : react s.lfd (s.heap cqe.entry.userData) cqe.res = .ok requests)
    (hcalled : Called requests s next) :
    Intact lfd
      { next with ring := next.ring.seen, pc := .head, handled := next.handled ++ [cqe] } := by
  have hpending := IoRing.pending_seen hcq
  have hanswered := h.answered
  rcases hcalled.queued with ⟨ops, hops, hqueued⟩
  refine ⟨hcalled.lfd.trans h.lfd, nofun, ?_, ?_⟩
  · apply hcalled.pointing
    exact fun sqe hsqe => h.pointing sqe (hpending.mem_iff.mpr (List.mem_cons_of_mem _ hsqe))
  · have hown := h.pointing cqe.entry (hpending.mem_iff.mpr (List.mem_cons_self ..))
    rw [hown, react_info] at hreact
    cases hreact
    dsimp only
    rw [hpc] at hanswered
    rw [hcalled.lfd, hcalled.handled, hqueued]
    exact hanswered.turn hops

theorem intact_step {lfd : Nat} {s t : State} {event : Event} (h : s.reused = false → Intact lfd s)
    (hstep : Step s event t) (hkept : t.reused = false) : Intact lfd t := by
  cases hstep with
  | started hpc hproduce =>
    have hcalled := produce_called hproduce hkept
    exact (h hcalled.reused).start hpc hcalled
  | submitted hpc | submitFailed hpc =>
    have hs := h hkept
    have hanswered := hs.answered
    rw [hpc] at hanswered
    exact ⟨hs.lfd, nofun, hs.pointing.perm (IoRing.pending_submit s.ring _), hanswered⟩
  | waitFailed hpc =>
    have hs := h hkept
    have hanswered := hs.answered
    rw [hpc] at hanswered
    exact ⟨hs.lfd, nofun, hs.pointing, hanswered⟩
  | panicked =>
    have hs := h hkept
    exact ⟨hs.lfd, hs.created, hs.pointing, hs.answered⟩
  | handled hpc hcq hreact hproduce =>
    have hcalled := produceEach_called hproduce hkept
    exact (h hcalled.reused).turn hpc hcq hreact hcalled
  | @completed i sqe res hsqe =>
    have hs := h hkept
    have hpending : (s.ring.complete i ⟨sqe, res⟩).pending.Perm s.ring.pending :=
      IoRing.pending_complete hsqe
    refine ⟨hs.lfd, ?_, hs.pointing.perm hpending, hs.answered⟩
    intro hpc
    exact List.perm_nil.mp (hs.created hpc ▸ hpending)

theorem intact_of_reachable {lfd : Nat} {s : State} (h : Reachable step (State.init lfd) s) :
    s.reused = false → Intact lfd s := by
  apply h.invariant fun s => s.reused = false → Intact lfd s
  · exact fun _ => ⟨rfl, fun _ => rfl, fun _ => List.not_mem_nil.elim, rfl, fun _ => rfl⟩
  · exact fun s event t _ hs hstep => intact_step hs (step_sound hstep)

end Single

theorem multiAnswer_eq_iff (lfd : Nat) (completion : Request × Int) :
    multiAnswer lfd completion = singleAnswer lfd completion ↔
      ∀ cfd, completion ≠ (.recv cfd, -ebadf) := by
  rcases completion with ⟨request, res⟩
  cases request with
  | recv cfd =>
    by_cases hres : res ≤ 0
    · rw [multiAnswer, MultiEcho.Registry.answers_unread hres, singleAnswer_unread hres]
      by_cases hebadf : res = -ebadf
      · simp [hebadf]
      · simp [hebadf]
    · have hpos := Int.not_le.mp hres
      have hebadf : res ≠ -ebadf := by
        unfold ebadf
        omega
      rw [multiAnswer, MultiEcho.Registry.answers_received hpos, singleAnswer_received hpos]
      simp [hebadf]
  | accept | send | close => exact ⟨fun _ => by simp, fun _ => rfl⟩

theorem multiAnswer_le (lfd : Nat) (completion : Request × Int) :
    multiAnswer lfd completion = singleAnswer lfd completion ∨
      (multiAnswer lfd completion).length < (singleAnswer lfd completion).length := by
  by_cases heq : multiAnswer lfd completion = singleAnswer lfd completion
  · exact Or.inl heq
  · rw [multiAnswer_eq_iff] at heq
    simp only [ne_eq, not_forall, not_not] at heq
    rcases heq with ⟨cfd, rfl⟩
    have hres : -ebadf ≤ 0 := by decide
    rw [multiAnswer, MultiEcho.Registry.answers_unread hres, singleAnswer_unread hres]
    exact Or.inr (by simp)

/-- Two runs that have processed the same completions have queued the same operations
exactly if no receive among them has failed with `EBADF`. -/
theorem queues_agree_iff {lfd : Nat} {m : MultiEcho.Server.State 1} {s : Server.State}
    (hm : Reachable MultiEcho.Server.step (.init 1 lfd) m)
    (hs : Reachable Server.step (.init lfd) s) (hkept : s.reused = false)
    (hmstarted : (m.loops 0).pc ≠ .created) (hsstarted : s.pc ≠ .created)
    (hsame : history (m.loops 0).handled = history s.handled) :
    (m.loops 0).queued.map Op.request = s.queued.map Op.request ↔
      ∀ cfd, (.recv cfd, -ebadf) ∉ history s.handled := by
  have hmulti := (loopAnswered_of_reachable hm 0).queued
  have hintact := intact_of_reachable hs hkept
  have hsingle := hintact.answered.queued
  rw [hintact.lfd] at hsingle
  rw [hmulti, hsingle, hsame, decide_eq_true hmstarted, decide_eq_true hsstarted,
    List.append_cancel_left_eq, flatMap_eq_iff (multiAnswer_le lfd)]
  simp only [multiAnswer_eq_iff]
  constructor
  · exact fun h cfd hmem => h _ hmem cfd rfl
  · rintro h completion hmem cfd rfl
    exact h cfd hmem

end IoWrapper.SingleEcho.Agreement
