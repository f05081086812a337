import IoWrapper.Core.Leftovers
import IoWrapper.SeqEcho.Server

/-! The connections of the two programs. Both have at most one that they serve. The C program
has no other; the Go program leaves every client connected that ends without having sent
anything. Its ring is behind by as many calls as waits have failed. -/
namespace IoWrapper.SeqEcho.Connections
open Core.Machine Core.Calls Core.Relay Core.Leftovers Server

def current : Pc → Option Nat
  | .receiving fd | .sending fd _ | .closing fd => some fd
  | .accepting | .ended => none

/-- The transfer of a first chunk, if there is any. -/
def first (chunk : List UInt8) : List (Transfer UInt8) := if chunk = [] then [] else [.took chunk]

/-- How far a connection has come. -/
def Due (buffer : List UInt8) (c : Conn) : Pc → Prop
  | .receiving _ => c = ⟨[], false⟩
  | .sending _ len => c.log = first (buffer.take len)
  | .closing _ =>
    c.log = [] ∨ ∃ chunk part, c.log = first chunk ++ [.gave part] ∧ part <+: chunk
  | .accepting | .ended => True

structure Served (p : Program) (w : World) (s : State) : Prop where
  here : ∀ fd, current s.pc = some fd →
    ∃ c, w.conns fd = some c ∧ Due (w.memory (p.buf s.turn)) c s.pc
  others : ∀ fd c, w.conns fd = some c → current s.pc ≠ some fd →
    p.answersEmpty = false ∧ c = ⟨[], true⟩

section Steps

variable {p : Program} {w w' : World} {s s' : State}

theorem setConn_self (w : World) (fd : Nat) (c : Conn) : (w.setConn fd c).conns fd = some c :=
  Function.update_self ..

theorem setConn_of_ne {fd fd' : Nat} (c : Conn) (h : fd' ≠ fd) :
    (w.setConn fd c).conns fd' = w.conns fd' :=
  Function.update_of_ne h ..

theorem Served.goes {fd : Nat} {c : Conn} (h : Served p w s) (hcurrent : current s.pc = some fd)
    (hcurrent' : current s'.pc = some fd) (hconn : w'.conns fd = some c)
    (hconns : ∀ fd', fd' ≠ fd → w'.conns fd' = w.conns fd')
    (hdue : Due (w'.memory (p.buf s'.turn)) c s'.pc) : Served p w' s' := by
  constructor
  case here =>
    intro fd' hfd'
    cases hcurrent'.symm.trans hfd'
    exact ⟨c, hconn, hdue⟩
  case others =>
    intro fd' c' hconn' hne
    have hne' : fd' ≠ fd := fun heq => hne (heq ▸ hcurrent')
    rw [hconns fd' hne'] at hconn'
    refine h.others fd' c' hconn' fun heq => hne' ?_
    exact Option.some.inj (heq.symm.trans hcurrent)

theorem Served.done {fd : Nat} (h : Served p w s) (hcurrent : current s.pc = some fd)
    (hnone : current s'.pc = none) (hconns : ∀ fd', fd' ≠ fd → w'.conns fd' = w.conns fd')
    (hleft : ∀ c, w'.conns fd = some c → p.answersEmpty = false ∧ c = ⟨[], true⟩) :
    Served p w' s' := by
  constructor
  case here =>
    intro fd' hfd'
    cases hnone.symm.trans hfd'
  case others =>
    intro fd' c hconn _
    by_cases heq : fd' = fd
    · exact hleft c (heq ▸ hconn)
    · rw [hconns fd' heq] at hconn
      refine h.others fd' c hconn fun hown => heq ?_
      exact Option.some.inj (hown.symm.trans hcurrent)

theorem Served.accept (h : Served p w s) (hpc : s.pc = .accepting) (fd : Nat) :
    Served p (w.setConn fd ⟨[], false⟩) { s with pc := .receiving fd } := by
  constructor
  case here =>
    intro fd' hfd'
    cases hfd'
    exact ⟨_, setConn_self .., rfl⟩
  case others =>
    intro fd' c hconn hne
    have hne' : fd' ≠ fd := fun heq => hne (heq ▸ rfl)
    rw [setConn_of_ne _ hne'] at hconn
    exact h.others fd' c hconn (by simp [hpc, current])

theorem Served.step (h : Served p w s) (hstep : Step p w s w' s') : Served p w' s' := by
  have hcurrent : ∀ {fd pc}, s.pc = pc → current pc = some fd → current s.pc = some fd := by
    intro fd pc hpc hfd
    rw [hpc, hfd]
  cases hstep with
  | refused hpc =>
    have hnone : current (if p.retries then s.next else { s with pc := .ended }).pc = none := by
      split <;> rfl
    refine ⟨fun fd hfd => ?_, fun fd c hconn _ => ?_⟩
    · cases hnone.symm.trans hfd
    · exact h.others fd c hconn (by simp [hpc, current])
  | accepted hpc => exact h.accept hpc _
  | @received fd bytes c hpc hconn hbytes =>
    rcases h.here fd (hcurrent hpc rfl) with ⟨own, hown, hdue⟩
    cases hconn.symm.trans hown
    rw [hpc] at hdue
    cases hdue
    refine h.goes (hcurrent hpc rfl) rfl (setConn_self ..)
      (fun fd' hne => setConn_of_ne _ hne) ?_
    simp [Due, World.setConn, World.store, first, hbytes]
  | @answered fd c hpc hconn hanswers =>
    rcases h.here fd (hcurrent hpc rfl) with ⟨own, hown, hdue⟩
    cases hconn.symm.trans hown
    rw [hpc] at hdue
    cases hdue
    exact h.goes (hcurrent hpc rfl) rfl (setConn_self ..) (fun fd' hne => setConn_of_ne _ hne) rfl
  | @left fd c hpc hconn hanswers =>
    rcases h.here fd (hcurrent hpc rfl) with ⟨own, hown, hdue⟩
    cases hconn.symm.trans hown
    rw [hpc] at hdue
    cases hdue
    refine h.done (hcurrent hpc rfl) rfl (fun fd' hne => setConn_of_ne _ hne) fun c hc => ?_
    cases (setConn_self ..).symm.trans hc
    exact ⟨hanswers, rfl⟩
  | @failed fd hpc =>
    rcases h.here fd (hcurrent hpc rfl) with ⟨c, hconn, hdue⟩
    rw [hpc] at hdue
    cases hdue
    exact h.goes (hcurrent hpc rfl) rfl hconn (fun _ _ => rfl) (Or.inl rfl)
  | @sent fd len count c hpc hconn =>
    rcases h.here fd (hcurrent hpc rfl) with ⟨own, hown, hdue⟩
    cases hconn.symm.trans hown
    rw [hpc] at hdue
    refine h.goes (hcurrent hpc rfl) rfl (setConn_self ..) (fun fd' hne => setConn_of_ne _ hne)
      (Or.inr ⟨(w.memory (p.buf s.turn)).take len, _, ?_, List.take_prefix count _⟩)
    rw [show c.log = first _ from hdue]
  | @unsent fd len hpc hconn =>
    rcases h.here fd (hcurrent hpc rfl) with ⟨c, hown, -⟩
    cases hconn.symm.trans hown
  | @closed fd hpc =>
    refine h.done (hcurrent hpc rfl) rfl (fun fd' hne => Function.update_of_ne hne ..) ?_
    intro c hc
    have hnone : Function.update w.conns fd none fd = none := Function.update_self ..
    cases hnone.symm.trans hc

theorem served_of_reachable {t : World × State}
    (h : Reachable (Server.step p) (World.init, State.init) t) : Served p t.1 t.2 := by
  apply h.invariant fun t => Served p t.1 t.2
  · constructor
    case here =>
      intro fd hfd
      cases hfd
    case others =>
      intro fd c hconn
      cases hconn
  · exact fun s act t _ hs hstep => hs.step (step_sound hstep)

theorem frame_of_step {fd : Nat} (h : Step p w s w' s') (hopen : w.conns fd ≠ none)
    (hne : current s.pc ≠ some fd) : w'.conns fd = w.conns fd ∧ current s'.pc ≠ some fd := by
  have hother : ∀ {own pc}, s.pc = pc → current pc = some own → fd ≠ own := by
    rintro own pc hpc hown rfl
    exact hne (by rw [hpc, hown])
  cases h with
  | refused hpc =>
    refine ⟨rfl, ?_⟩
    split <;> simp [State.next, current]
  | @accepted own hpc hfree =>
    have hfd : fd ≠ own := fun heq => hopen (heq ▸ hfree)
    exact ⟨setConn_of_ne _ hfd, fun heq => hfd (Option.some.inj heq).symm⟩
  | received hpc | answered hpc | sent hpc =>
    have hfd := hother hpc rfl
    exact ⟨setConn_of_ne _ hfd, fun heq => hfd (Option.some.inj heq).symm⟩
  | left hpc => exact ⟨setConn_of_ne _ (hother hpc rfl), by simp [State.next, current]⟩
  | failed hpc | unsent hpc =>
    exact ⟨rfl, fun heq => hother hpc rfl (Option.some.inj heq).symm⟩
  | closed hpc =>
    exact ⟨Function.update_of_ne (hother hpc rfl) .., by simp [State.next, current]⟩

theorem left_alone {t : World × State} {fd : Nat} {c : Conn}
    (h : Reachable (Server.step p) (w, s) t) (hconn : w.conns fd = some c)
    (hne : current s.pc ≠ some fd) : t.1.conns fd = some c := by
  suffices hkept : t.1.conns fd = some c ∧ current t.2.pc ≠ some fd from hkept.1
  apply h.invariant (fun t => t.1.conns fd = some c ∧ current t.2.pc ≠ some fd) ⟨hconn, hne⟩
  rintro ⟨w, s⟩ act t _ ⟨hconn, hne⟩ hstep
  rcases frame_of_step (step_sound hstep) (by rw [hconn]; simp) hne with ⟨hsame, hne'⟩
  exact ⟨hsame.trans hconn, hne'⟩

end Steps

/-- The C program has no connection open when it goes on to the next client. -/
theorem none_left_open {w : World} {s : State}
    (h : Reachable (Server.step cDemo) (World.init, State.init) (w, s))
    (hpc : s.pc = .accepting) (fd : Nat) : w.conns fd = none := by
  cases hconn : w.conns fd with
  | none => rfl
  | some c =>
    have hleft := (served_of_reachable h).others fd c hconn (by simp [hpc, current])
    cases hleft.1

section Ring

variable {r : Ringed Call Reply State World}

theorem direct_of_ring (h : Reachable ringStep (idle World.init State.init) r)
    (hphase : r.phase = .ready) :
    Reachable (Server.step goDemo) (World.init, State.init) (r.kernel, r.process) ∧
      r = idle r.kernel r.process := by
  rcases lone_of_reachable h with ⟨hlone, hreach⟩
  rcases hlone.of_ready hphase with ⟨hsq, hinflight, hcq⟩
  rw [caughtUp_of_nil hcq] at hreach
  refine ⟨hreach, ?_⟩
  cases r
  cases hphase
  cases hsq
  cases hinflight
  cases hcq
  rfl

/-- Between two calls of the Go program, as long as no wait has failed: what the connection that
it is about to close has been given is from the front of what it has sent first; and if it is
about to accept, then the connections that are open are of clients that have ended without
sending anything, and they stay open for ever. -/
theorem only_silent_left_open (h : Reachable ringStep (idle World.init State.init) r)
    (hphase : r.phase = .ready) :
    (∀ fd, r.process.pc = .closing fd → ∃ c, r.kernel.conns fd = some c ∧
      (c.log = [] ∨ ∃ chunk part, c.log = first chunk ++ [.gave part] ∧ part <+: chunk)) ∧
    (r.process.pc = .accepting → ∀ fd c, r.kernel.conns fd = some c →
      c.log = [] ∧ c.ended = true ∧
      ∀ t, Reachable ringStep r t → t.kernel.conns fd = some c) := by
  rcases direct_of_ring h hphase with ⟨hreach, hidle⟩
  have hserved := served_of_reachable hreach
  constructor
  · intro fd hpc
    rcases hserved.here fd (by simp [hpc, current]) with ⟨c, hconn, hdue⟩
    rw [hpc] at hdue
    exact ⟨c, hconn, hdue⟩
  · intro hpc fd c hconn
    have hne : current r.process.pc ≠ some fd := by simp [hpc, current]
    rcases hserved.others fd c hconn hne with ⟨-, rfl⟩
    refine ⟨rfl, rfl, fun t ht => ?_⟩
    rw [hidle] at ht
    exact left_alone (lone_of_reachable ht).2 hconn hne

theorem only_silent_left_open_one : ∃ r, Reachable ringStep (idle World.init State.init) r ∧
    r.phase = .ready ∧ r.process.pc = .accepting ∧ r.kernel.conns 5 = some ⟨[], true⟩ ∧
    ∀ t, Reachable ringStep r t → t.kernel.conns 5 = some ⟨[], true⟩ := by
  have hview : (run ringStep (idle World.init State.init)
      [.queue, .submit 1, .complete 0 ⟨5, []⟩, .reap, .queue, .submit 1, .complete 0 ⟨0, []⟩,
        .reap]).map (fun r => (r.phase, r.process.pc, r.kernel.conns 5)) =
      some (.ready, .accepting, some ⟨[], true⟩) := by
    decide +kernel
  rcases Reachable.of_view hview with ⟨r, hreach, hr⟩
  simp only [Prod.mk.injEq] at hr
  rcases hr with ⟨hphase, hpc, hconn⟩
  exact ⟨r, hreach, hphase, hpc, hconn,
    ((only_silent_left_open hreach hphase).2 hpc 5 _ hconn).2.2⟩

/-- Whatever the kernel does, and whichever waits fail: no call of the Go program is lost and none
is answered twice. The ring has an entry for every wait that has failed, besides that of the call
under way, so `GetSqe` has room until 1024 waits have failed; and if the entries complete in
order, then the answer that is taken next is that to the call which was made as many calls before
the one under way as waits have failed. -/
theorem ring_lags {ω δ : Type} (K : Kernel Call Reply ω δ) (w : ω)
    {s : Ringed Call Reply State ω × List (Note Call)}
    (h : Reachable (record (note goDemo.process) (ringed goDemo.process K viaRing giveUp))
      (idle w State.init, []) s) :
    (made s.2).Perm (answered s.2 ++ contents s.1) ∧
      (contents s.1).length = gaveUps s.2 + underway s.1.phase ∧
      (gaveUps s.2 < entries → s.1.phase = .ready → s.1.sq.length < entries) ∧
      (InOrder s.2 → ∀ c r rest, s.1.phase = .waiting → s.1.cq = (c, r) :: rest →
        (made s.2)[(made s.2).length - 1 - gaveUps s.2]? = some c ∧
        (made s.2)[(made s.2).length - 1]? = goDemo.call s.1.process) := by
  have haccounted := accounted_of_reachable h
  refine ⟨haccounted.once, haccounted.left, fun hfew hphase => ?_,
    fun horder c r rest hphase hcq => haccounted.lag hphase hcq horder⟩
  have hleft := haccounted.left
  rw [hphase] at hleft
  simp only [contents, underway, List.length_append] at hleft
  omega

theorem ring_lags_one : ∃ s, Reachable
      (record (note goDemo.process) (ringed goDemo.process kernel viaRing giveUp))
      (idle World.init State.init, []) s ∧
    s.1.phase = .waiting ∧ s.1.cq = [(.recvmsg 5 0 maxBufferSize, ⟨3, [7, 8, 9]⟩)] ∧
    goDemo.call s.1.process = some .accept ∧ InOrder s.2 ∧ gaveUps s.2 = 1 ∧
    (made s.2)[(made s.2).length - 1 - gaveUps s.2]? =
      some (.recvmsg 5 0 maxBufferSize) := by
  have hview : (run (record (note goDemo.process)
        (ringed goDemo.process kernel viaRing giveUp)) (idle World.init State.init, [])
      [.queue, .submit 1, .complete 0 ⟨5, []⟩, .reap, .queue, .submit 1, .waitFails,
        .complete 0 ⟨3, [7, 8, 9]⟩, .call ⟨0, []⟩, .queue, .submit 1]).map
      (fun s => (s.1.phase, s.1.cq, goDemo.call s.1.process, s.2)) =
      some (.waiting, [(.recvmsg 5 0 maxBufferSize, ⟨3, [7, 8, 9]⟩)], some .accept,
        [.made .accept, .completed 0, .answered .accept, .made (.recvmsg 5 0 maxBufferSize),
          .gaveUp, .completed 0, .made .accept]) := by
    decide +kernel
  rcases Reachable.of_view hview with ⟨s, hreach, hs⟩
  simp only [Prod.mk.injEq] at hs
  rcases hs with ⟨hphase, hcq, hcall, hnotes⟩
  have horder : InOrder s.2 := by
    rw [hnotes]
    intro i hi
    simpa using hi
  refine ⟨s, hreach, hphase, hcq, hcall, horder, by rw [hnotes]; rfl, ?_⟩
  exact ((ring_lags kernel World.init hreach).2.2.2 horder _ _ _ hphase hcq).1

end Ring

end IoWrapper.SeqEcho.Connections
