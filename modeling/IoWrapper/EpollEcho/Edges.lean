import IoWrapper.EpollEcho.Server

/-! Which bytes are left behind. A report is answered with one `recv`, and what the `recv`
leaves is not reported again; nor is what comes in between a `recv` that finds nothing and the
`shutdown` that follows on it. All other bytes have an event to come or have been read. -/
namespace IoWrapper.EpollEcho.Edges
open Core.Machine Server

/-- No event is pending. -/
def Quiet (s : State) : Prop :=
  s.backlog = [] ∧ ∀ fd, ∀ c ∈ s.conns fd, c.interest = true → c.ready = false

/-- The bytes that wait have come in since the last `recv`, or it could not take them. -/
def Counted (c : Conn) : Prop := c.unread ≠ [] ↔ c.late = true ∨ maxMessageLen < c.found

/-- Bytes that have come in since the last `recv` are reported, unless the connection is being
taken out. -/
structure Told (events : List Nat) (pc : Pc) (fd : Nat) (c : Conn) : Prop where
  counted : Counted c
  ready : c.ready = true → c.interest = true
  late : c.late = true →
    c.ready = true ∨ fd ∈ events ∨ pc = .removing fd ∨ c.interest = false

structure Tracked (sockListenFd : Nat) (s : State) : Prop where
  listening : s.conns sockListenFd = none
  idle : s.pc = .waiting → s.events = []
  queued : ∀ c ∈ s.backlog, Counted c
  told : ∀ fd, ∀ c ∈ s.conns fd, Told s.events s.pc fd c

section Conns

variable {events : List Nat} {pc : Pc} {fd : Nat} {c : Conn}

theorem Counted.unread_eq_nil (h : Counted c) :
    c.unread = [] ↔ c.late = false ∧ c.found ≤ maxMessageLen := by
  have hnot := not_congr h
  rw [not_or, Nat.not_lt, Bool.not_eq_true, not_not] at hnot
  exact hnot

theorem counted_hear (h : Counted c) {news : News} (hpossible : news.Possible c) :
    Counted (c.hear news) := by
  cases news with
  | data bytes =>
    have hne : c.unread ++ bytes ≠ [] := List.append_ne_nil_of_right_ne_nil _ hpossible.1
    exact ⟨fun _ => Or.inl rfl, fun _ => hne⟩
  | hangUp | reset => exact h

theorem counted_recv (c : Conn) : Counted c.recv := by
  unfold Counted Conn.recv
  simp only [Bool.false_eq_true, false_or, ne_eq, List.drop_eq_nil_iff, Nat.not_le]

theorem Told.hear (h : Told events pc fd c) {news : News} (hpossible : news.Possible c) :
    Told events pc fd (c.hear news) := by
  have hready : (c.hear news).ready = c.interest ∧ (c.hear news).interest = c.interest := by
    cases news <;> exact ⟨rfl, rfl⟩
  refine ⟨counted_hear h.counted hpossible, ?_, fun _ => ?_⟩
  · rw [hready.1, hready.2]
    exact id
  · rw [hready.1, hready.2]
    cases c.interest with
    | true => exact Or.inl rfl
    | false => exact Or.inr (Or.inr (Or.inr rfl))

theorem told_register (h : Counted c) : Told events pc fd c.register := by
  refine ⟨h, fun _ => rfl, fun hlate => Or.inl ?_⟩
  have hne : c.unread ≠ [] := h.mpr (Or.inl hlate)
  simp [Conn.register, hne]

theorem Told.mono {events' : List Nat} {pc' : Pc} (h : Told events pc fd c)
    (hevents : fd ∈ events → fd ∈ events') (hpc : pc = .removing fd → pc' = .removing fd) :
    Told events' pc' fd c := by
  refine ⟨h.counted, h.ready, fun hlate => ?_⟩
  rcases h.late hlate with hready | hmem | hremoving | hinterest
  · exact Or.inl hready
  · exact Or.inr (Or.inl (hevents hmem))
  · exact Or.inr (Or.inr (Or.inl (hpc hremoving)))
  · exact Or.inr (Or.inr (Or.inr hinterest))

end Conns

section Steps

variable {sockListenFd : Nat} {s t : State}

theorem each_update {P : List Nat → Pc → Nat → Conn → Prop} {fd : Nat} {c : Conn}
    (h : ∀ fd, ∀ c ∈ s.conns fd, P s.events s.pc fd c)
    (hconns : t.conns = Function.update s.conns fd (some c)) (hnew : P t.events t.pc fd c)
    (hothers : ∀ fd' c', fd' ≠ fd → s.conns fd' = some c' → P s.events s.pc fd' c' →
      P t.events t.pc fd' c') : ∀ fd, ∀ c ∈ t.conns fd, P t.events t.pc fd c := by
  intro fd' c' hconn
  rw [hconns] at hconn
  by_cases hfd : fd' = fd
  · subst hfd
    rw [Function.update_self] at hconn
    cases hconn
    exact hnew
  · rw [Function.update_of_ne hfd] at hconn
    exact hothers fd' c' hfd hconn (h fd' c' hconn)

theorem Tracked.ne_listening {fd : Nat} {c : Conn} (h : Tracked sockListenFd s)
    (hconn : s.conns fd = some c) : fd ≠ sockListenFd := by
  rintro rfl
  cases h.listening.symm.trans hconn

theorem Tracked.rest {rest : List Nat} {fd : Nat} {c : Conn} (h : Tracked sockListenFd s)
    (hevents : s.events = sockListenFd :: rest) (hconn : s.conns fd = some c) :
    fd ∈ s.events → fd ∈ rest := by
  rw [hevents, List.mem_cons]
  exact fun hmem => hmem.resolve_left (h.ne_listening hconn)

theorem Tracked.setConn {fd : Nat} {c : Conn} (h : Tracked sockListenFd s)
    (hne : fd ≠ sockListenFd) (hconns : t.conns = Function.update s.conns fd (some c))
    (hidle : t.pc = .waiting → t.events = []) (hqueued : ∀ c ∈ t.backlog, c ∈ s.backlog)
    (hnew : Told t.events t.pc fd c)
    (hothers : ∀ fd' c', fd' ≠ fd → s.conns fd' = some c' → Told s.events s.pc fd' c' →
      Told t.events t.pc fd' c') : Tracked sockListenFd t := by
  refine ⟨?_, hidle, fun c hmem => h.queued c (hqueued c hmem), ?_⟩
  · rw [hconns, Function.update_of_ne hne.symm]
    exact h.listening
  · exact each_update h.told hconns hnew hothers

theorem Tracked.report {fds : List Nat} (h : Tracked sockListenFd s) (hpc : s.pc = .waiting) :
    Tracked sockListenFd (s.report fds) := by
  refine ⟨?_, nofun, h.queued, ?_⟩
  · change (if _ then _ else _) = none
    rw [h.listening, Option.map_none, ite_self]
  · intro fd c hconn
    change (if fd ∈ fds then (s.conns fd).map Conn.reported else s.conns fd) = some c at hconn
    split at hconn
    · rename_i hmem
      rcases Option.map_eq_some_iff.mp hconn with ⟨before, hbefore, rfl⟩
      exact ⟨(h.told fd before hbefore).counted, nofun, fun _ => Or.inr (Or.inl hmem)⟩
    · refine (h.told fd c hconn).mono ?_ ?_
      · rw [h.idle hpc]
        exact fun hmem => absurd hmem List.not_mem_nil
      · rw [hpc]
        exact nofun

theorem Tracked.step {event : Event} (h : Tracked sockListenFd s)
    (hstep : step sockListenFd s event = some t) : Tracked sockListenFd t := by
  cases step_sound hstep with
  | connected =>
    refine ⟨h.listening, h.idle, ?_, h.told⟩
    intro c hmem
    rcases List.mem_append.mp hmem with hmem | hmem
    · exact h.queued c hmem
    · rw [List.mem_singleton.mp hmem]
      simp [Counted, Conn.blank]
  | heardQueued hconn hpossible =>
    refine ⟨h.listening, h.idle, ?_, h.told⟩
    intro c' hmem
    rcases List.mem_or_eq_of_mem_set hmem with hmem | rfl
    · exact h.queued c' hmem
    · exact counted_hear (h.queued _ (List.mem_of_getElem? hconn)) hpossible
  | heard hconn hpossible =>
    exact h.setConn (h.ne_listening hconn) rfl h.idle (fun _ hmem => hmem)
      ((h.told _ _ hconn).hear hpossible) fun _ _ _ _ htold => htold
  | reported hpc => exact h.report hpc
  | failed hpc | killed hpc =>
    refine ⟨h.listening, nofun, h.queued, fun fd c hconn => ?_⟩
    exact (h.told fd c hconn).mono id (by simp [hpc])
  | notAccepted hpc hevents =>
    refine ⟨h.listening, nofun, h.queued, fun fd c hconn => ?_⟩
    exact (h.told fd c hconn).mono (h.rest hevents hconn) (by simp [hpc])
  | accepted hpc hevents hbacklog hne hfree =>
    refine h.setConn hne rfl (by simp [State.setConn, hpc]) ?_ ?_ ?_
    · exact fun c hmem => by
        rw [hbacklog]
        exact List.mem_cons_of_mem _ hmem
    · exact told_register (h.queued _ (by simp [hbacklog]))
    · intro fd c _ hconn htold
      exact htold.mono (h.rest hevents hconn) id
  | received hpc hevents hne hconn =>
    refine h.setConn hne rfl ?_ (fun _ hmem => hmem) ?_ ?_
    · simp only [State.recv, State.setConn]
      split <;> exact nofun
    · exact ⟨counted_recv _, (h.told _ _ hconn).ready, nofun⟩
    · intro fd' c' hother _ htold
      refine htold.mono (fun hmem => ?_) (by simp [hpc])
      rw [hevents, List.mem_cons] at hmem
      exact hmem.resolve_left hother
  | @sent fd bytes c hpc hconn =>
    have htold := h.told fd c hconn
    exact h.setConn (h.ne_listening hconn) rfl nofun (fun _ hmem => hmem)
      ⟨htold.counted, htold.ready, (htold.mono id (by simp [hpc])).late⟩
      fun _ _ _ _ htold => htold.mono id (by simp [hpc])
  | removed hpc hconn =>
    refine h.setConn (h.ne_listening hconn) rfl nofun (fun _ hmem => hmem) ?_ ?_
    · exact ⟨(h.told _ _ hconn).counted, nofun, fun _ => Or.inr (Or.inr (Or.inr rfl))⟩
    · intro fd' c' hother _ htold
      refine htold.mono id fun hremoving => ?_
      rw [hpc, Pc.removing.injEq] at hremoving
      exact absurd hremoving.symm hother
  | @shutDown fd c hpc hconn =>
    have htold := h.told fd c hconn
    exact h.setConn (h.ne_listening hconn) rfl nofun (fun _ hmem => hmem)
      ⟨htold.counted, htold.ready, (htold.mono id (by simp [hpc])).late⟩
      fun _ _ _ _ htold => htold.mono id (by simp [hpc])
  | ended hpc hevents =>
    refine ⟨h.listening, fun _ => hevents, h.queued, fun fd c hconn => ?_⟩
    exact (h.told fd c hconn).mono id (by simp [hpc])

end Steps

theorem tracked_of_reachable {sockListenFd : Nat} {s : State}
    (h : Reachable (step sockListenFd) State.init s) : Tracked sockListenFd s := by
  apply h.invariant (Tracked sockListenFd)
  · exact ⟨rfl, fun _ => rfl, nofun, nofun⟩
  · exact fun _ _ _ _ hs hstep => hs.step hstep

theorem removed_of_late {sockListenFd fd : Nat} {s : State} {c : Conn}
    (h : Tracked sockListenFd s) (hpc : s.pc = .waiting) (hquiet : Quiet s)
    (hconn : s.conns fd = some c) (hlate : c.late = true) : c.interest = false := by
  rcases (h.told fd c hconn).late hlate with hready | hmem | hremoving | hinterest
  · have hfalse := hquiet.2 fd c hconn ((h.told fd c hconn).ready hready)
    cases hready.symm.trans hfalse
  · rw [h.idle hpc] at hmem
    exact absurd hmem List.not_mem_nil
  · cases hpc.symm.trans hremoving
  · exact hinterest

/-- When the server goes back to wait and no event is pending, no accepted connection has
bytes waiting, just if the last `recv` on each of them has found no more than it can take, and
nothing has come in after the last `recv` on one that has been taken out. -/
theorem drained_iff_fits {sockListenFd : Nat} {s : State}
    (h : Reachable (step sockListenFd) State.init s) (hpc : s.pc = .waiting) (hquiet : Quiet s) :
    (∀ fd, ∀ c ∈ s.conns fd, c.unread = []) ↔
      ∀ fd, ∀ c ∈ s.conns fd,
        c.found ≤ maxMessageLen ∧ (c.interest = false → c.late = false) := by
  have htracked := tracked_of_reachable h
  refine forall_congr' fun fd => forall_congr' fun c => forall_congr' fun hconn => ?_
  rw [(htracked.told fd c hconn).counted.unread_eq_nil]
  constructor
  · exact fun hnone => ⟨hnone.2, fun _ => hnone.1⟩
  · rintro ⟨hfits, hlate⟩
    refine ⟨?_, hfits⟩
    by_contra hsome
    rw [Bool.not_eq_false] at hsome
    cases (hlate (removed_of_late htracked hpc hquiet hconn hsome)).symm.trans hsome

def oneConnect : List Event := [.connect, .wait [3], .handle 5 0, .endBatch]

def oneBurst (bytes : List UInt8) : List Event :=
  oneConnect ++
    [.hear (.accepted 5) (.data bytes), .wait [5], .handle 5 0, .send false, .endBatch]

theorem step_conns_none {sockListenFd fd : Nat} {s t : State} {event : Event}
    (hstep : step sockListenFd s event = some t) (hnone : s.conns fd = none)
    (hne : ∀ ret ctl, event = .handle ret ctl → ret.toNat ≠ fd) : t.conns fd = none := by
  have hset : ∀ fd' c, (∃ c', s.conns fd' = some c') →
      Function.update s.conns fd' (some c) fd = none := by
    rintro fd' c ⟨c', hconn⟩
    refine (Function.update_of_ne ?_ ..).trans hnone
    rintro rfl
    cases hnone.symm.trans hconn
  cases step_sound hstep with
  | connected | heardQueued | failed | notAccepted | killed | ended => exact hnone
  | heard hconn | sent _ hconn | removed _ hconn | shutDown _ hconn =>
    exact hset _ _ ⟨_, hconn⟩
  | received hpc hevents hother hconn => exact hset _ _ ⟨_, hconn⟩
  | reported =>
    change (if _ then _ else _) = none
    rw [hnone, Option.map_none, ite_self]
  | accepted => exact (Function.update_of_ne (hne _ _ rfl).symm ..).trans hnone

theorem run_conns_none {sockListenFd fd : Nat} {s t : State} {events : List Event}
    (hrun : run (step sockListenFd) s events = some t) (hnone : s.conns fd = none)
    (hne : ∀ ret ctl, .handle ret ctl ∈ events → ret.toNat ≠ fd) : t.conns fd = none := by
  induction events generalizing s with
  | nil =>
    cases hrun
    exact hnone
  | cons event events ih =>
    rw [run_cons] at hrun
    rcases Option.bind_eq_some_iff.mp hrun with ⟨next, hstep, hrest⟩
    apply ih hrest
    · exact step_conns_none hstep hnone fun ret ctl heq => hne ret ctl (by simp [heq])
    · exact fun ret ctl hmem => hne ret ctl (List.mem_cons_of_mem _ hmem)

theorem quiet_of_burst {bytes : List UInt8} {s : State} {c : Conn}
    (hrun : run (step 3) State.init (oneBurst bytes) = some s) (hbacklog : s.backlog = [])
    (hconn : s.conns 5 = some c) (hready : c.ready = false) :
    Quiet s ∧ ∀ fd, ∀ c' ∈ s.conns fd, c' = c := by
  have hothers : ∀ fd, fd ≠ 5 → s.conns fd = none := by
    intro fd hne
    apply run_conns_none hrun rfl
    intro ret ctl hmem
    have hret : ret = 5 := by
      simp only [oneBurst, oneConnect, List.cons_append, List.nil_append, List.mem_cons,
        reduceCtorEq, Event.handle.injEq, List.not_mem_nil, or_false, false_or] at hmem
      omega
    rw [hret]
    exact hne.symm
  have honly : ∀ fd, ∀ c' ∈ s.conns fd, c' = c := by
    intro fd c' hmem
    by_cases hfd : fd = 5
    · subst hfd
      exact Option.some.inj (hmem.symm.trans hconn)
    · cases (hothers fd hfd).symm.trans hmem
  exact ⟨⟨hbacklog, fun fd c' hmem _ => honly fd c' hmem ▸ hready⟩, honly⟩

theorem drained_two_bytes : ∃ s, Reachable (step 3) State.init s ∧ s.pc = .waiting ∧ Quiet s ∧
    ((s.conns 5).map Conn.sent = some [104, 105]) ∧ ∀ fd, ∀ c ∈ s.conns fd, c.unread = [] := by
  have hview : (run (step 3) State.init (oneBurst [104, 105])).map
      (fun s => (s.pc, s.backlog, s.conns 5)) =
        some (.waiting, [], some ⟨[], false, true, false, false, [104, 105], 2, false⟩) := by
    decide +kernel
  rcases Option.map_eq_some_iff.mp hview with ⟨s, hrun, hs⟩
  simp only [Prod.mk.injEq] at hs
  rcases hs with ⟨hpc, hbacklog, hconn⟩
  rcases quiet_of_burst hrun hbacklog hconn rfl with ⟨hquiet, honly⟩
  refine ⟨s, ⟨_, hrun⟩, hpc, hquiet, by rw [hconn]; rfl, ?_⟩
  refine (drained_iff_fits ⟨_, hrun⟩ hpc hquiet).mpr fun fd c hmem => ?_
  rw [honly fd c hmem]
  decide

/-- Of 2049 bytes that arrive at once the last one is left, with no event to come. -/
theorem burst_leaves_byte : ∃ s, Reachable (step 3) State.init s ∧ s.pc = .waiting ∧ Quiet s ∧
    ∃ c, s.conns 5 = some c ∧ c.unread = [7] ∧ c.interest = true := by
  have hview : (run (step 3) State.init (oneBurst (List.replicate 2049 7))).map
      (fun s => (s.pc, s.backlog, s.conns 5)) =
        some (.waiting, [],
          some ⟨[7], false, true, false, false, List.replicate 2048 7, 2049, false⟩) := by
    decide +kernel
  rcases Option.map_eq_some_iff.mp hview with ⟨s, hrun, hs⟩
  simp only [Prod.mk.injEq] at hs
  rcases hs with ⟨hpc, hbacklog, hconn⟩
  exact ⟨s, ⟨_, hrun⟩, hpc, (quiet_of_burst hrun hbacklog hconn rfl).1, _, hconn, rfl, rfl⟩

section Standing

/-- The kernel looks once more before it reports: a connection has something to read then, or
the client has hung up. -/
def Standing (s : State) : Event → Prop
  | .wait fds => ∀ fd ∈ fds, ∀ c ∈ s.conns fd, c.unread ≠ [] ∨ c.hup = true
  | _ => True

instance (s : State) (event : Event) : Decidable (Standing s event) :=
  match event with
  | .wait fds => inferInstanceAs
      (Decidable (∀ fd ∈ fds, ∀ c ∈ s.conns fd, c.unread ≠ [] ∨ c.hup = true))
  | .connect | .hear .. | .waitError | .handle .. | .send _ | .remove | .shutDown | .endBatch =>
    isTrue trivial

/-- A client that the server leaves has hung up before. -/
structure Heeded (events : List Nat) (pc : Pc) (fd : Nat) (c : Conn) : Prop where
  reported : fd ∈ events → c.unread ≠ [] ∨ c.hup = true
  gone : pc = .removing fd ∨ c.interest = false → c.hup = true ∧ c.late = false

variable {sockListenFd : Nat} {s t : State}

theorem Heeded.hear {events : List Nat} {pc : Pc} {fd : Nat} {c : Conn}
    (h : Heeded events pc fd c) {news : News} (hpossible : news.Possible c) :
    Heeded events pc fd (c.hear news) := by
  cases news with
  | data bytes =>
    refine ⟨fun _ => Or.inl (List.append_ne_nil_of_right_ne_nil _ hpossible.1), fun hgone => ?_⟩
    cases (h.gone hgone).1.symm.trans hpossible.2.1
  | hangUp | reset => exact ⟨fun _ => Or.inr rfl, fun hgone => ⟨rfl, (h.gone hgone).2⟩⟩

theorem Heeded.mono {events events' : List Nat} {pc pc' : Pc} {fd : Nat} {c : Conn}
    (h : Heeded events pc fd c) (hevents : fd ∈ events' → fd ∈ events)
    (hpc : pc' = .removing fd → pc = .removing fd) : Heeded events' pc' fd c :=
  ⟨fun hmem => h.reported (hevents hmem), fun hgone => h.gone (hgone.imp_left hpc)⟩

theorem Heeded.handling {events : List Nat} {pc : Pc} {fd : Nat} {c : Conn}
    (h : Heeded events pc fd c) : Heeded events .handling fd c :=
  h.mono id nofun

structure Heeds (sockListenFd : Nat) (s : State) : Prop where
  nodup : s.events.Nodup
  known : ∀ fd ∈ s.events, fd = sockListenFd ∨ s.conns fd ≠ none
  heeded : ∀ fd, ∀ c ∈ s.conns fd, Heeded s.events s.pc fd c

theorem known_setConn {fd fd' : Nat} (c : Conn) (h : s.conns fd ≠ none) :
    Function.update s.conns fd' (some c) fd ≠ none := by
  rw [Function.update_apply]
  split
  · exact Option.some_ne_none c
  · exact h

theorem Heeds.setConn {fd : Nat} {c : Conn} (h : Heeds sockListenFd s)
    (hconns : t.conns = Function.update s.conns fd (some c)) (hevents : t.events.Sublist s.events)
    (hpc : ∀ fd', fd' ≠ fd → t.pc ≠ .removing fd') (hnew : Heeded t.events t.pc fd c) :
    Heeds sockListenFd t := by
  refine ⟨hevents.nodup h.nodup, ?_, each_update h.heeded hconns hnew ?_⟩
  · intro fd hmem
    rw [hconns]
    exact (h.known fd (hevents.subset hmem)).imp_right (known_setConn c)
  · intro fd' c' hother _ hheeded
    exact hheeded.mono (fun hmem => hevents.subset hmem) fun hremoving =>
      absurd hremoving (hpc fd' hother)

theorem Heeds.report {fds : List Nat} (h : Heeds sockListenFd s) (hnodup : fds.Nodup)
    (hpending : ∀ fd ∈ fds, s.Pending sockListenFd fd) (hstanding : Standing s (.wait fds)) :
    Heeds sockListenFd (s.report fds) := by
  refine ⟨hnodup, fun fd (hmem : fd ∈ fds) => ?_, fun fd c hconn => ?_⟩
  · refine (hpending fd hmem).imp And.left ?_
    rintro ⟨c, hconn, -⟩ hnone
    change (if fd ∈ fds then (s.conns fd).map Conn.reported else s.conns fd) = none at hnone
    rw [if_pos hmem, hconn] at hnone
    cases hnone
  · have hgone : ∀ before, s.conns fd = some before →
        (Pc.handling = .removing fd ∨ before.interest = false →
          before.hup = true ∧ before.late = false) := fun before hbefore =>
      (h.heeded fd before hbefore).handling.gone
    change (if fd ∈ fds then (s.conns fd).map Conn.reported else s.conns fd) = some c at hconn
    split at hconn
    · rename_i hmem
      rcases Option.map_eq_some_iff.mp hconn with ⟨before, hbefore, rfl⟩
      exact ⟨fun _ => hstanding fd hmem before hbefore, hgone before hbefore⟩
    · rename_i hmem
      exact ⟨fun hin => absurd hin hmem, hgone c hconn⟩

theorem Heeds.received {fd : Nat} {rest : List Nat} {c : Conn} (h : Heeds sockListenFd s)
    (hevents : s.events = fd :: rest) (hconn : s.conns fd = some c) :
    Heeds sockListenFd ({ s with events := rest }.recv fd c) := by
  have hnodup := h.nodup
  rw [hevents, List.nodup_cons] at hnodup
  refine h.setConn rfl (by rw [hevents]; exact List.sublist_cons_self ..) ?_ ?_
  · intro fd' hother hremoving
    simp only [State.recv, State.setConn] at hremoving
    split at hremoving
    · exact hother (Pc.removing.inj hremoving).symm
    · cases hremoving
  · refine ⟨fun hmem => absurd hmem hnodup.1, fun hgone => ⟨?_, rfl⟩⟩
    have hheeded := h.heeded fd c hconn
    rcases hgone with hremoving | hinterest
    · refine (hheeded.reported (by rw [hevents]; exact List.mem_cons_self ..)).resolve_left ?_
      intro hne
      simp only [State.recv, State.setConn, if_neg hne, reduceCtorEq] at hremoving
    · exact (hheeded.gone (Or.inr hinterest)).1

theorem Heeds.step {event : Event} (h : Heeds sockListenFd s) (hstanding : Standing s event)
    (hstep : step sockListenFd s event = some t) : Heeds sockListenFd t := by
  cases step_sound hstep with
  | connected | heardQueued => exact ⟨h.nodup, h.known, h.heeded⟩
  | heard hconn hpossible =>
    refine ⟨h.nodup, ?_, each_update h.heeded rfl ((h.heeded _ _ hconn).hear hpossible)
      fun _ _ _ _ hheeded => hheeded⟩
    exact fun fd hmem => (h.known fd hmem).imp_right (known_setConn _)
  | reported hpc hne hnodup hlen hpending => exact h.report hnodup hpending hstanding
  | failed | killed | ended =>
    exact ⟨h.nodup, h.known, fun fd c hconn => (h.heeded fd c hconn).mono id nofun⟩
  | notAccepted hpc hevents =>
    have hnodup := h.nodup
    have hknown := h.known
    rw [hevents] at hnodup hknown
    refine ⟨(List.nodup_cons.mp hnodup).2, fun fd hmem => hknown fd (List.mem_cons_of_mem _ hmem),
      fun fd c hconn => (h.heeded fd c hconn).mono ?_ nofun⟩
    rw [hevents]
    exact List.mem_cons_of_mem _
  | @accepted rest ret ctl c backlog hpc hevents hbacklog hne hfree =>
    refine h.setConn rfl (by rw [hevents]; exact List.sublist_cons_self ..) ?_ ⟨?_, ?_⟩
    · simp [State.setConn, hpc]
    · intro hmem
      -- a descriptor that has just been given out is not one of those reported
      have hknown := h.known ret.toNat (by rw [hevents]; exact List.mem_cons_of_mem _ hmem)
      exact absurd hfree (hknown.resolve_left hne)
    · simp [State.setConn, hpc, Conn.register]
  | received hpc hevents hne hconn => exact h.received hevents hconn
  | @sent fd bytes c hpc hconn =>
    have hheeded := (h.heeded fd c hconn).handling
    exact h.setConn rfl (List.Sublist.refl _) (fun _ _ => nofun)
      ⟨hheeded.reported, hheeded.gone⟩
  | @removed fd c hpc hconn =>
    have hheeded := h.heeded fd c hconn
    exact h.setConn rfl (List.Sublist.refl _) (fun _ _ => nofun)
      ⟨hheeded.reported, fun _ => hheeded.gone (Or.inl hpc)⟩
  | @shutDown fd c hpc hconn =>
    have hheeded := (h.heeded fd c hconn).handling
    exact h.setConn rfl (List.Sublist.refl _) (fun _ _ => nofun)
      ⟨hheeded.reported, hheeded.gone⟩

theorem heeds_of_reachable (h : Reachable (restrict Standing (step sockListenFd)) State.init s) :
    Heeds sockListenFd s := by
  apply h.invariant (Heeds sockListenFd) ⟨List.nodup_nil, nofun, nofun⟩
  intro s event t _ hs hstep
  rcases restrict_eq_some.mp hstep with ⟨hstanding, hnext⟩
  exact hs.step hstanding hnext

/-- If the kernel reports no connection that there is nothing to read from, a client is left
only when it has hung up, and the bytes that come in late are none. -/
theorem drained_iff_found (h : Reachable (restrict Standing (step sockListenFd)) State.init s)
    (hpc : s.pc = .waiting) (hquiet : Quiet s) :
    (∀ fd, ∀ c ∈ s.conns fd, c.unread = []) ↔
      ∀ fd, ∀ c ∈ s.conns fd, c.found ≤ maxMessageLen := by
  have hheeds := heeds_of_reachable h
  have htracked := tracked_of_reachable h.of_restrict
  refine forall_congr' fun fd => forall_congr' fun c => forall_congr' fun hconn => ?_
  rw [(htracked.told fd c hconn).counted.unread_eq_nil, and_iff_right_iff_imp]
  intro _
  by_contra hsome
  rw [Bool.not_eq_false] at hsome
  have hremoved := removed_of_late htracked hpc hquiet hconn hsome
  cases ((hheeds.heeded fd c hconn).gone (Or.inr hremoved)).2.symm.trans hsome

end Standing

end IoWrapper.EpollEcho.Edges
